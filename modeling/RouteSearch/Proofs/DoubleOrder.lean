/-
This file proves that a queue ranks all numbers of double precision, those that are not a number
among them, and that only finite numbers have a finite sum.
-/

import RouteSearch.Weight.Double
import RouteSearch.Proofs.ExactWeight
import Mathlib

namespace RouteSearch.Double

open Float.Model (UnpackedFloat)

/-- Negative infinity comes first, both zeros share one place, and what is not a number comes
last. Numbers of one sign go by exponent and then by mantissa. -/
def place : UnpackedFloat → ℤ ×ₗ ℤ ×ₗ ℤ
  | .infinity .negative => toLex (0, toLex (0, 0))
  | .finite .negative mantissa exponent _ => toLex (1, toLex (-exponent, -mantissa))
  | .zero _ => toLex (2, toLex (0, 0))
  | .finite .positive mantissa exponent _ => toLex (3, toLex (exponent, mantissa))
  | .infinity .positive => toLex (4, toLex (0, 0))
  | .notANumber => toLex (5, toLex (0, 0))

theorem compare_then_eq_lt {firstExponent secondExponent : ℤ} {first second : ℕ} :
    (compare firstExponent secondExponent).then (compare first second) = .lt ↔
      toLex (firstExponent, (first : ℤ)) < toLex (secondExponent, (second : ℤ)) := by
  rw [Ordering.then_eq_lt, compare_lt_iff_lt, compare_eq_iff_eq, compare_lt_iff_lt,
    Prod.Lex.toLex_lt_toLex, Nat.cast_lt]

theorem compare_then_eq_gt {firstExponent secondExponent : ℤ} {first second : ℕ} :
    (compare firstExponent secondExponent).then (compare first second) = .gt ↔
      toLex (-firstExponent, -(first : ℤ)) < toLex (-secondExponent, -(second : ℤ)) := by
  rw [Ordering.then_eq_gt, compare_gt_iff_gt, compare_eq_iff_eq, compare_gt_iff_gt,
    Prod.Lex.toLex_lt_toLex]
  simp [neg_lt_neg_iff]

/-- The places tell which number is less than the other, or is a number while the other is
none. -/
theorem place_lt_place (first second : UnpackedFloat) :
    place first < place second ↔
      (first.lt second || (!first.isNaN && second.isNaN)) = true := by
  have signs : compare UnpackedFloat.Sign.negative UnpackedFloat.Sign.positive = .lt := rfl
  rcases first with (_ | _) | _ | _ | ⟨_ | _, _, _, _⟩ <;>
    rcases second with (_ | _) | _ | _ | ⟨_ | _, _, _, _⟩ <;>
    simp [UnpackedFloat.lt, UnpackedFloat.compare, UnpackedFloat.isNaN, place,
      Prod.Lex.toLex_lt_toLex, compare_then_eq_lt, compare_then_eq_gt, signs]

theorem less_eq (first second : Float) :
    Weight.less first second = first.toModel.unpack.lt second.toModel.unpack := by
  rw [Bool.eq_iff_iff]
  exact decide_eq_true_iff.trans decide_eq_true_iff

theorem precedes_iff (first second : Float) :
    Weight.precedes first second = true ↔
      place first.toModel.unpack < place second.toModel.unpack := by
  rw [place_lt_place, ← less_eq]
  rfl

instance : RankedWeight Float where
  asymm := by
    intro first second ahead
    rw [precedes_iff] at ahead
    rw [Bool.eq_false_iff, ne_eq, precedes_iff]
    exact ahead.asymm
  behind := by
    intro first middle last firstBehind middleBehind
    rw [Bool.eq_false_iff, ne_eq, precedes_iff, not_lt] at firstBehind middleBehind ⊢
    exact middleBehind.trans firstBehind

example : Weight.precedes (1 / 0 : Float) (0 / 0) = true := by decide

example :
    Weight.precedes (-0.0 : Float) 0 = false ∧ Weight.precedes (0 : Float) (-0.0) = false := by
  decide

theorem isFinite_eq (number : Float) :
    Weight.isFinite number = number.toModel.unpack.isFinite := by
  change (!number.toModel.unpack.isNaN && !number.toModel.unpack.isInf) = _
  cases number.toModel.unpack <;> rfl

/-- What is not finite does not become finite when it is put into bits. -/
theorem isFinite_of_pack {number : UnpackedFloat}
    (finite : (Float.Model.pack number).unpack.isFinite = true) : number.isFinite = true := by
  cases number with
  | infinity sign => cases sign <;> cases finite
  | notANumber => cases finite
  | zero sign => rfl
  | finite sign mantissa exponent positive => rfl

theorem isFinite_of_add {first second : UnpackedFloat}
    (finite : (first.add .binary64 second).isFinite = true) :
    first.isFinite = true ∧ second.isFinite = true := by
  cases first <;> cases second
  case infinity.infinity left right => cases left <;> cases right <;> cases finite
  all_goals first | exact ⟨rfl, rfl⟩ | cases finite

theorem isFinite_of_sub {first second : UnpackedFloat}
    (finite : (first.sub .binary64 second).isFinite = true) : first.isFinite = true := by
  cases first <;> cases second
  case infinity.infinity left right => cases left <;> cases right <;> cases finite
  all_goals first | rfl | cases finite

instance : FiniteWeight Float where
  add := by
    intro first second finite
    rw [isFinite_eq] at finite
    rw [isFinite_eq, isFinite_eq]
    exact isFinite_of_add (isFinite_of_pack finite)
  sub := by
    intro first second finite
    rw [isFinite_eq] at finite ⊢
    exact isFinite_of_sub (isFinite_of_pack finite)
  less := by
    intro first second below
    rw [less_eq] at below
    change first.toModel.unpack.isNaN = false
    generalize first.toModel.unpack = number at below ⊢
    cases number with
    | notANumber => cases below
    | infinity _ | zero _ | finite _ _ _ _ => rfl
  infinity := by decide

end RouteSearch.Double
