/-
This file takes a query apart into its steps, and records which labels each direction takes from
its queue.
-/

import RouteSearch.Search.Call

namespace RouteSearch

/-- A label as it was when its direction took it from the queue: whether it had been taken
before, and whether the best meeting beat it. -/
structure Taking (W X : Type) where
  id : LabelId
  label : Label W X
  again : Bool
  beaten : Bool

/-- What was taken up to the first label that was beaten, which is the last one. -/
def Taking.untilBeaten {W X : Type} : List (Taking W X) → List (Taking W X)
  | [] => []
  | taking :: rest => if taking.beaten then [taking] else taking :: untilBeaten rest

/-- A step of a direction, under a filter for this step only. -/
structure Step (W : Type) where
  direction : Direction
  filter : Option (ArcFilter W) := none

/-- What the next step of a direction takes from its queue, unless the queue is empty. -/
def Search.taking? {W X S : Type} [Weight W] (search : Search W X S) (direction : Direction) :
    Option (Taking W X) := do
  let (id, again, tree) ← (search.tree direction).pop?
  let label ← tree.label? id
  pure ⟨id, label, again, search.isBeaten label.weight⟩

namespace Planner

variable {W X S : Type} [Weight W]

/-- Carries out steps one after another. -/
def follow (planner : Planner W X S) : List (Step W) → Search W X S → Search W X S
  | [], search => search
  | step :: steps, search =>
      planner.follow steps (planner.advanceUnder step.direction step.filter search).2

/-- What a direction takes while the steps are carried out. -/
def takings (planner : Planner W X S) (direction : Direction) :
    List (Step W) → Search W X S → List (Taking W X)
  | [], _ => []
  | step :: steps, search =>
      (if step.direction = direction then search.taking? direction else none).toList ++
        planner.takings direction steps
          (planner.advanceUnder step.direction step.filter search).2

/-- Answers a query step by step under the pins that the search has: start with the given weights
at the roots, run, and read the result. -/
def routeWeighted (planner : Planner W X S) (source : NodeId) (sourceWeight : W)
    (target : NodeId) (targetWeight : W) (clock : Clock) (search : Search W X S) :
    Except RoutingError (Option (Route W)) × Search W X S :=
  match planner.start source sourceWeight target targetWeight (clock 0) search with
  | .error error => (.error error, search)
  | .ok search =>
      let search := planner.run (fun reading => clock (reading + 1)) search
      (planner.result search, search)

/-- Plants the roots of a query, with the meeting that they are if source and target are one
node. -/
def planted (planner : Planner W X S) (source : NodeId) (sourceWeight : W) (target : NodeId)
    (targetWeight : W) (now : Nat) (search : Search W X S) : Search W X S :=
  let roots : Sides LabelId := ⟨search.trees.forward.size, search.trees.backward.size⟩
  let search := planner.plant .backward target targetWeight
    (planner.plant .forward source sourceWeight
      { search with seeded := true, startedAt := some now })
  if source = target then
    match planner.settings.stateKind with
    | .nodeBased =>
        if planner.settings.tracksMeeting then
          { search with best := some ⟨roots, sourceWeight + targetWeight⟩ }
        else search
    | .edgeBased =>
        if search.isPinned then search
        else
          { search with
            best := some ⟨roots, Weight.zero⟩
            trees := search.trees.map (·.finish true) }
  else search

/-- The steps that a query starts with: each direction looks from its root, under its pin. There
is nothing to look for in an edge-based query without pins between a node and itself. -/
def rootSteps (planner : Planner W X S) (source target : NodeId) (search : Search W X S) :
    List (Step W) :=
  if source = target && planner.isEdgeBased && !search.isPinned then []
  else
    [⟨.forward, (search.pins.get .forward).map (ArcFilter.pinned · .forward)⟩,
      ⟨.backward, (search.pins.get .backward).map (ArcFilter.pinned · .backward)⟩]

/-- The steps of a query that is started, and then advanced as the schedule says. -/
def queried (planner : Planner W X S) (source target : NodeId) (search : Search W X S)
    (schedule : List Direction) : List (Step W) :=
  planner.rootSteps source target search ++ schedule.map fun direction => ⟨direction, none⟩

end Planner

end RouteSearch
