/-
This file gives the laws of the exact numbers: their sums, their order, and the prices among
them.
-/

import RouteSearch.Weight.Exact
import Mathlib.Algebra.Order.Ring.Rat
import Mathlib.Tactic.Linarith

namespace RouteSearch

/-- The order of a queue ranks all numbers: nothing stands on both sides of another one, and
what is not ahead of its neighbour is not ahead of anything behind that. -/
class RankedWeight (W : Type) [Weight W] : Prop where
  asymm : ∀ {first second : W},
    Weight.precedes first second = true → Weight.precedes second first = false
  behind : ∀ {first middle last : W}, Weight.precedes first middle = false →
    Weight.precedes middle last = false → Weight.precedes first last = false

namespace RankedWeight

variable {W : Type} [Weight W] [RankedWeight W]

theorem irrefl (weight : W) : Weight.precedes weight weight = false := by
  cases ahead : Weight.precedes weight weight with
  | false => rfl
  | true => exact ahead ▸ asymm ahead

end RankedWeight

/-- The parts of a finite sum are finite, and so is the number that a finite difference is taken
from. What is less than something is a number. -/
class FiniteWeight (W : Type) [Weight W] : Prop where
  add : ∀ {first second : W}, Weight.isFinite (first + second) = true →
    Weight.isFinite first = true ∧ Weight.isFinite second = true
  sub : ∀ {first second : W}, Weight.isFinite (first - second) = true →
    Weight.isFinite first = true
  less : ∀ {first second : W}, Weight.less first second = true → Weight.isNaN first = false
  infinity : Weight.isFinite (Weight.infinity : W) = false

namespace Exact

@[simp] theorem zero_eq : (Weight.zero : Exact) = .finite 0 := rfl

@[simp] theorem infinity_eq : (Weight.infinity : Exact) = .infinity := rfl

@[simp] theorem finite_add (first second : Rat) :
    (Exact.finite first + Exact.finite second : Exact) = .finite (first + second) := rfl

@[simp] theorem finite_sub (first second : Rat) :
    (Exact.finite first - Exact.finite second : Exact) = .finite (first - second) := by
  rw [Rat.sub_eq_add_neg]
  rfl

@[simp] theorem less_finite (first second : Rat) :
    Weight.less (Exact.finite first) (Exact.finite second) = decide (first < second) := rfl

@[simp] theorem less_infinity (value : Rat) :
    Weight.less (Exact.finite value) Exact.infinity = true := rfl

@[simp] theorem atMost_finite (first second : Rat) :
    Weight.atMost (Exact.finite first) (Exact.finite second) = decide (first ≤ second) := by
  have split : Weight.atMost (Exact.finite first) (Exact.finite second) =
      (decide (first < second) || decide (first = second)) := by
    by_cases same : first = second <;>
      simp [Weight.atMost, atMost, less, same]
  rw [split, Bool.eq_iff_iff]
  simp [le_iff_lt_or_eq]

@[simp] theorem infinity_atMost_finite (value : Rat) :
    Weight.atMost Exact.infinity (Exact.finite value) = false := rfl

@[simp] theorem atMost_infinity (value : Rat) :
    Weight.atMost (Exact.finite value) Exact.infinity = true := rfl

@[simp] theorem isInfinite_finite (value : Rat) :
    Weight.isInfinite (Exact.finite value) = false := rfl

@[simp] theorem isInfinite_infinity : Weight.isInfinite Exact.infinity = true := rfl

@[simp] theorem isFinite_finite (value : Rat) :
    Weight.isFinite (Exact.finite value) = true := rfl

@[simp] theorem precedes_finite (first second : Rat) :
    Weight.precedes (Exact.finite first) (Exact.finite second) = decide (first < second) := by
  simp [Weight.precedes, Weight.isNaN]

/-- What is not a number comes last, and a negative infinity first. -/
instance : RankedWeight Exact where
  asymm {first second} ahead := by
    cases first <;> cases second <;>
      simp_all [Weight.precedes, Weight.less, Weight.isNaN, less, le_of_lt]
  behind {first middle last} := by
    cases first <;> cases middle <;> cases last <;>
      simp_all [Weight.precedes, Weight.less, Weight.isNaN, less]
    exact fun lower upper => le_trans upper lower

instance : FiniteWeight Exact where
  add {first second} finite := by
    cases first <;> cases second
    case finite.finite => exact ⟨rfl, rfl⟩
    all_goals cases finite
  sub {first second} finite := by
    cases first <;> cases second
    case finite.finite => rfl
    all_goals cases finite
  less {first second} below := by
    cases first with
    | undefined => cases second <;> cases below
    | finite value => rfl
    | infinity => rfl
    | negativeInfinity => rfl
  infinity := rfl

protected theorem add_comm (first second : Exact) : first + second = second + first := by
  cases first <;> cases second
  case finite.finite => exact congrArg Exact.finite (Rat.add_comm _ _)
  all_goals rfl

protected theorem add_assoc (first second third : Exact) :
    first + second + third = first + (second + third) := by
  cases first <;> cases second <;> cases third
  case finite.finite.finite => exact congrArg Exact.finite (Rat.add_assoc _ _ _)
  all_goals rfl

instance : Std.Commutative (α := Exact) (· + ·) := ⟨Exact.add_comm⟩

instance : Std.Associative (α := Exact) (· + ·) := ⟨Exact.add_assoc⟩

@[simp] protected theorem zero_add (weight : Exact) : Exact.finite 0 + weight = weight := by
  cases weight with
  | finite value => simp
  | infinity => rfl
  | negativeInfinity => rfl
  | undefined => rfl

@[simp] protected theorem add_zero (weight : Exact) : weight + Exact.finite 0 = weight := by
  rw [Exact.add_comm, Exact.zero_add]

@[simp] theorem isFinite_add (weight : Exact) (value : Rat) :
    Weight.isFinite (weight + .finite value) = Weight.isFinite weight := by
  cases weight <;> rfl

/-- Only finite numbers have a finite sum. -/
theorem add_eq_finite {first second : Exact} {value : Rat}
    (sum : first + second = Exact.finite value) :
    ∃ left right, first = .finite left ∧ second = .finite right ∧ left + right = value := by
  cases first <;> cases second
  case finite.finite left right => exact ⟨left, right, rfl, rfl, Exact.finite.inj sum⟩
  all_goals cases sum

theorem atMost_antisymm {first second : Exact} (atMost : Weight.atMost first second = true)
    (atLeast : Weight.atMost second first = true) : first = second := by
  cases first <;> cases second
  case finite.finite lower upper =>
    rw [atMost_finite, decide_eq_true_iff] at atMost atLeast
    exact congrArg Exact.finite (le_antisymm atMost atLeast)
  all_goals first
    | rfl
    | exact absurd atMost Bool.false_ne_true
    | exact absurd atLeast Bool.false_ne_true

/-- Nothing is above infinity. -/
theorem eq_infinity_of_atMost {weight : Exact}
    (above : Weight.atMost infinity weight = true) : weight = .infinity := by
  cases weight with
  | infinity => rfl
  | finite value => cases above
  | negativeInfinity => cases above
  | undefined => cases above

/-- A price that a search can add up: a fraction that is not negative, or infinite. -/
def IsPrice : Exact → Prop
  | .finite value => 0 ≤ value
  | .infinity => True
  | _ => False

instance : DecidablePred IsPrice
  | .finite value => inferInstanceAs (Decidable (0 ≤ value))
  | .infinity => isTrue trivial
  | .negativeInfinity => isFalse id
  | .undefined => isFalse id

theorem IsPrice.add {first second : Exact} (left : first.IsPrice) (right : second.IsPrice) :
    (first + second).IsPrice := by
  cases first <;> cases second
  case finite.finite => exact add_nonneg left right
  all_goals first | exact left.elim | exact right.elim | trivial

/-- A price that is added does not make a weight endless below zero. -/
theorem IsPrice.add_ne_negativeInfinity {first second : Exact} (price : second.IsPrice)
    (bounded : first ≠ .negativeInfinity) : first + second ≠ .negativeInfinity := by
  intro sum
  cases first <;> cases second
  case negativeInfinity.finite => exact bounded rfl
  all_goals first | exact price.elim | cases sum

theorem IsPrice.infinity_add {weight : Exact} (price : weight.IsPrice) :
    Exact.infinity + weight = .infinity := by
  cases weight with
  | finite value => rfl
  | infinity => rfl
  | negativeInfinity => exact price.elim
  | undefined => exact price.elim

theorem IsPrice.cases {weight : Exact} (price : weight.IsPrice) :
    weight = .infinity ∨ ∃ value, 0 ≤ value ∧ weight = .finite value := by
  cases weight with
  | finite value => exact .inr ⟨value, price, rfl⟩
  | infinity => exact .inl rfl
  | negativeInfinity => exact price.elim
  | undefined => exact price.elim

/-- A bound on what a price may be is a bound on the price. -/
theorem IsPrice.atMost {weight : Exact} {bound : Rat} (price : weight.IsPrice)
    (above : ∀ value, 0 ≤ value → weight = .finite value → bound ≤ value) :
    Weight.atMost (.finite bound) weight = true := by
  rcases price.cases with rfl | ⟨value, nonneg, rfl⟩
  · rfl
  · rw [atMost_finite, decide_eq_true_iff]
    exact above value nonneg rfl

theorem IsPrice.nonneg {weight : Exact} {value : Rat} (price : weight.IsPrice)
    (same : weight = .finite value) : 0 ≤ value := by
  rw [same] at price
  exact price

theorem IsPrice.isNumber {weight : Exact} (price : weight.IsPrice) : weight ≠ .undefined := by
  rintro rfl
  exact price.elim

/-- A sum that is not infinite has no infinite part. -/
theorem finite_of_add {weight : Exact} {value : Rat} (isNumber : weight ≠ .undefined)
    (bounded : Weight.isInfinite (weight + .finite value) = false) :
    ∃ cost, weight = .finite cost := by
  cases weight with
  | finite cost => exact ⟨cost, rfl⟩
  | infinity => cases bounded
  | negativeInfinity => cases bounded
  | undefined => exact absurd rfl isNumber

end Exact

end RouteSearch
