/-
This file follows a search from one change to the next, records every label that it takes, and
follows a run that nothing limits from one advance to the next.
-/

import RouteSearch.Search.History

namespace RouteSearch

/-- Whether the label was looked from: it was new, and no meeting beat it. -/
def Taking.isExpanded {W X : Type} (taking : Taking W X) : Bool :=
  !taking.again && !taking.beaten

/-- What both directions have taken, the latest last. -/
abbrev Takings (W X : Type) := List (Direction × Taking W X)

namespace Takings

variable {W X : Type}

def of (takings : Takings W X) (direction : Direction) : List (Taking W X) :=
  (takings.filter (·.1 = direction)).map Prod.snd

/-- The labels that one direction has looked from. -/
def expanded (takings : Takings W X) (direction : Direction) : List (Taking W X) :=
  (takings.of direction).filter (·.isExpanded)

end Takings

namespace Planner

variable {W X S : Type} [Weight W]

/-- What a search goes through: roots are planted for a query that is not refused, its directions
advance under any filters, and its filter, its pins, its times and its limit are changed. -/
inductive Course (planner : Planner W X S) (first : Search W X S) :
    Takings W X → Search W X S → Prop
  | start : Course planner first [] first
  | plant {past search source target} (sourceWeight targetWeight : W) (now : Nat)
      (before : Course planner first past search)
      (accepted : planner.check search source target = .ok ()) :
      Course planner first past
        (planner.planted source sourceWeight target targetWeight now search)
  | advance {past search} (direction : Direction) (step : Option (ArcFilter W))
      (before : Course planner first past search) :
      Course planner first (past ++ (search.taking? direction).toList.map (direction, ·))
        (planner.advanceUnder direction step search).2
  | aside {past search} (filter : Option (ArcFilter W)) (pins : Sides (Option EdgeId))
      (startedAt : Option Nat) (limit : Option Limit) (before : Course planner first past search) :
      Course planner first past { search with
        filter := filter
        pins := pins
        startedAt := startedAt
        limit := limit }

/-- What a search takes while it carries out steps. -/
def taken (planner : Planner W X S) : List (Step W) → Search W X S → Takings W X
  | [], _ => []
  | step :: steps, search =>
      (search.taking? step.direction).toList.map (step.direction, ·) ++
        planner.taken steps (planner.advanceUnder step.direction step.filter search).2

/-- What a search takes while a query takes its first steps. -/
def takenBySeed (planner : Planner W X S) (source : NodeId) (sourceWeight : W) (target : NodeId)
    (targetWeight : W) (now : Nat) (search : Search W X S) : Takings W X :=
  planner.taken (planner.rootSteps source target search)
    (planner.planted source sourceWeight target targetWeight now search)

/-- The steps of a run up to the end of the search or to a limit, if one of them ever comes. -/
def stepsToEnd? (planner : Planner W X S) (clock : Clock) (search : Search W X S) :
    Option (List (Step W)) :=
  if search.finished then some []
  else
    match planner.reachedLimit? search (clock 0) with
    | some _ => some []
    | none => do
        let later ← planner |>.stepsToEnd? (fun reading => clock (reading + 1))
          (planner.advance search.cheaperDirection search).2
        return ⟨search.cheaperDirection, none⟩ :: later
partial_fixpoint

/-- What a search takes while it runs. -/
def takenByRun (planner : Planner W X S) (clock : Clock) (search : Search W X S) : Takings W X :=
  let search := { search with startedAt := some (search.startedAt.getD (clock 0)) }
  planner.taken ((planner.stepsToEnd? (fun reading => clock (reading + 1)) search).getD []) search

/-- What a search takes while a call is carried out. -/
def takenByCall (planner : Planner W X S) (clock : Clock) (call : Call W)
    (search : Search W X S) : Takings W X :=
  match call with
  | .start source sourceWeight target targetWeight =>
      match planner.check search source target with
      | .error _ => []
      | .ok _ => planner.takenBySeed source sourceWeight target targetWeight (clock 0) search
  | .run => planner.takenByRun clock search
  | .advance direction => planner.taken [⟨direction, none⟩] search
  | .route source sourceEdge target targetEdge =>
      let search := { search with pins := ⟨sourceEdge, targetEdge⟩ }
      match planner.check search source target with
      | .error _ => []
      | .ok _ =>
          planner.takenBySeed source Weight.zero target Weight.zero (clock 0) search ++
            planner.takenByRun (fun reading => clock (reading + 1))
              (planner.seed source Weight.zero target Weight.zero (clock 0) search)
  | .result | .pin _ _ | .restrict _ => []

/-- What a search takes while calls are carried out one after another. -/
def takenByAll (planner : Planner W X S) (clock : Clock) :
    List (Call W) → Search W X S → Takings W X
  | [], _ => []
  | call :: calls, search =>
      planner.takenByCall clock call search ++
        planner.takenByAll clock calls (planner.perform clock call search).2

/-- A run without limits comes from one search to the other. -/
inductive Runs (planner : Planner W X S) : Search W X S → Search W X S → Prop
  | here (search : Search W X S) : Runs planner search search
  | on {search moment} (unfinished : search.finished = false)
      (later : Runs planner (planner.advance search.cheaperDirection search).2 moment) :
      Runs planner search moment

end Planner

end RouteSearch
