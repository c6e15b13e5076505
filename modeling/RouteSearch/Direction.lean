/-
This file names the two directions of a search, and keeps one value for each of them.
-/

namespace RouteSearch

/-- A search goes forward from the source, or backward from the target against travel. -/
inductive Direction where
  | forward
  | backward
deriving DecidableEq

namespace Direction

def isBackward : Direction → Bool
  | .forward => false
  | .backward => true

def opposite : Direction → Direction
  | .forward => .backward
  | .backward => .forward

def name : Direction → String
  | .forward => "fwd"
  | .backward => "bwd"

@[simp] theorem opposite_opposite (direction : Direction) :
    direction.opposite.opposite = direction := by
  cases direction <;> rfl

theorem eq_or_opposite (direction other : Direction) :
    other = direction ∨ other = direction.opposite := by
  cases direction <;> cases other <;> simp [opposite]

end Direction

/-- One value for each direction. -/
structure Sides (A : Type) where
  forward : A
  backward : A

namespace Sides

variable {A B : Type}

def get (sides : Sides A) : Direction → A
  | .forward => sides.forward
  | .backward => sides.backward

def set (sides : Sides A) (direction : Direction) (value : A) : Sides A :=
  match direction with
  | .forward => { sides with forward := value }
  | .backward => { sides with backward := value }

def both (value : A) : Sides A := ⟨value, value⟩

/-- The pair whose value in `direction` is `here`, and in the opposite one `there`. -/
def oriented (direction : Direction) (here there : A) : Sides A :=
  match direction with
  | .forward => ⟨here, there⟩
  | .backward => ⟨there, here⟩

def map (f : A → B) (sides : Sides A) : Sides B :=
  ⟨f sides.forward, f sides.backward⟩

@[simp] theorem get_set (sides : Sides A) (direction : Direction) (value : A) :
    (sides.set direction value).get direction = value := by
  cases direction <;> rfl

@[simp] theorem get_opposite_set (sides : Sides A) (direction : Direction) (value : A) :
    (sides.set direction value).get direction.opposite = sides.get direction.opposite := by
  cases direction <;> rfl

@[simp] theorem get_oriented (direction : Direction) (here there : A) :
    (oriented direction here there).get direction = here := by
  cases direction <;> rfl

@[simp] theorem get_opposite_oriented (direction : Direction) (here there : A) :
    (oriented direction here there).get direction.opposite = there := by
  cases direction <;> rfl

@[simp] theorem get_both (value : A) (direction : Direction) :
    (both value).get direction = value := by
  cases direction <;> rfl

@[simp] theorem get_map (f : A → B) (sides : Sides A) (direction : Direction) :
    (sides.map f).get direction = f (sides.get direction) := by
  cases direction <;> rfl

/-- A pair is known from either direction. -/
theorem ext_get {first second : Sides A}
    (same : ∀ direction, first.get direction = second.get direction) : first = second := by
  cases first
  cases second
  exact congr (congrArg Sides.mk (same .forward)) (same .backward)

end Sides

end RouteSearch
