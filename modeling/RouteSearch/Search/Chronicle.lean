/-
This file takes the calls of a search apart into single changes, and lists the changes as they
happen.
-/

import RouteSearch.Search.History

namespace RouteSearch

/-- A change in a search, which happens in the tree of one direction or beside the trees. -/
inductive Event where
  /-- The roots of a query were planted at its ends. -/
  | planted (ends : Sides NodeId)
  /-- A label was taken from the queue. -/
  | popped (direction : Direction)
  /-- A new label was entered under the key of its state. -/
  | inserted (direction : Direction) (key : StateKey)
  /-- The label under the key was overwritten by a cheaper one. -/
  | improved (direction : Direction) (key : StateKey)
  /-- A label that was just written found its state in the other tree. -/
  | met (direction : Direction)
  | finished (direction : Direction)
  /-- The filter, the pins or the limits of the search changed. -/
  | aside

/-- Whether a label was taken from the queue of this direction. -/
def Event.isPopOf (direction : Direction) : Event → Bool
  | .popped other => other = direction
  | _ => false

/-- The ends of the query that a call asks for. -/
def Call.ends? {W : Type} : Call W → Option (Sides NodeId)
  | .start source _ target _ => some ⟨source, target⟩
  | .route source _ target _ => some ⟨source, target⟩
  | _ => none

/-- A weight was replaced by smaller ones, none of them infinite, any number of times. -/
inductive Weight.Lowers {W : Type} [Weight W] (old : W) : W → Prop
  | same : Lowers old old
  | again {middle new} (before : Lowers old middle) (less : Weight.less new middle = true)
      (bounded : Weight.isInfinite new = false) : Lowers old new

namespace Planner

variable {W X S : Type} [Weight W]

/-- The tree has this label under the id, or a cheaper way to the same state by which it was
overwritten. -/
def Retains (planner : Planner W X S) (tree : SearchTree W X) (id : LabelId)
    (label : Label W X) : Prop :=
  ∃ known, tree.label? id = some known ∧ known.node = label.node ∧
    (planner.isEdgeBased = true → known.edge = label.edge) ∧
    Weight.Lowers label.weight known.weight

/-- From a label that was taken, a direction looks over an arc at its node to a state that it can
reach. The label counts as it was when it was taken, also if it was overwritten since. -/
structure LooksOver (planner : Planner W X S) (direction : Direction) (parent : LabelId)
    (label : Label W X) (arc : Arc W) (search : Search W X S) : Prop where
  listed : arc ∈ planner.network.arcs label.node
  bounded : Weight.isInfinite (planner.reachWeight direction label arc) = false
  retained : planner.Retains (search.tree direction) parent label

/-- A single change of a search. Roots are planted for a query that is not refused, and a label
is new only where its key is unknown. -/
inductive Fires (planner : Planner W X S) : Search W X S → Event → Search W X S → Prop
  | plant {search source target} (sourceWeight targetWeight : W) (now : Nat)
      (accepted : planner.check search source target = .ok ()) :
      Fires planner search (.planted ⟨source, target⟩)
        (planner.planted source sourceWeight target targetWeight now search)
  | pop {search direction id seen tree}
      (popped : (search.tree direction).pop? = some (id, seen, tree)) :
      Fires planner search (.popped direction) (search.withTree direction tree)
  | insert {search direction parent label arc id after}
      (looks : planner.LooksOver direction parent label arc search)
      (unknown : (search.tree direction).lookup?
        (planner.settings.stateKind.key arc direction) = none)
      (recorded : planner.record direction parent arc (planner.reachWeight direction label arc)
        search = some (id, after)) :
      Fires planner search (.inserted direction (planner.settings.stateKind.key arc direction))
        after
  | improve {search direction parent label arc id after}
      (looks : planner.LooksOver direction parent label arc search)
      (known : (search.tree direction).lookup?
        (planner.settings.stateKind.key arc direction) = some id)
      (recorded : planner.record direction parent arc (planner.reachWeight direction label arc)
        search = some (id, after)) :
      Fires planner search (.improved direction (planner.settings.stateKind.key arc direction))
        after
  | meet {search direction node arc id} (tracks : planner.settings.tracksMeeting = true)
      (listed : arc ∈ planner.network.arcs node)
      (indexed : (search.tree direction).lookup?
        (planner.settings.stateKind.key arc direction) = some id) :
      Fires planner search (.met direction) (planner.meet direction arc id search)
  | finish {search} (direction : Direction) :
      Fires planner search (.finished direction)
        (search.withTree direction ((search.tree direction).finish true))
  | aside {search after} (trees : after.trees = search.trees) (best : after.best = search.best)
      (seeded : after.seeded = search.seeded) : Fires planner search .aside after

/-- The changes that have led from one search to another, the latest one at the end. -/
inductive Chronicle (planner : Planner W X S) (first : Search W X S) :
    List Event → Search W X S → Prop
  | start : Chronicle planner first [] first
  | next {past search event after} (before : Chronicle planner first past search)
      (fires : planner.Fires search event after) :
      Chronicle planner first (past ++ [event]) after

/-- One of the calls begins a query between these ends, and none was begun before. -/
def Begins (planner : Planner W X S) (clock : Clock) (calls : List (Call W))
    (search : Search W X S) (ends : Sides NodeId) : Prop :=
  ∃ before call rest, calls = before ++ call :: rest ∧ call.ends? = some ends ∧
    (planner.performAll clock before search).2.seeded = false ∧
    (planner.performAll clock (before ++ [call]) search).2.seeded = true

end Planner

end RouteSearch
