/-
This file proves that without a limit on time any calls do the same at any time, but for the time
at which a query is started.
-/

import RouteSearch.Search.Course
import RouteSearch.Proofs.Stepwise

namespace RouteSearch

variable {W X S : Type} [Weight W] {planner : Planner W X S}

/-- The search as if its query had been started at another time. -/
def Search.startedFrom (search : Search W X S) (startedAt : Option Nat) : Search W X S :=
  { search with startedAt := startedAt }

omit [Weight W] in
theorem Search.startedFrom_eq_beside (search : Search W X S) (startedAt : Option Nat) :
    search.startedFrom startedAt = search.beside ⟨search.pins, startedAt, .both false⟩ := by
  rw [Search.beside_eq rfl rfl]
  rfl

namespace Planner

section Steps

variable (planner) (search : Search W X S) (startedAt : Option Nat)

omit [Weight W] in
theorem check_startedFrom :
    planner.check (search.startedFrom startedAt) = planner.check search := rfl

theorem advanceUnder_startedFrom (direction : Direction) (step : Option (ArcFilter W)) :
    planner.advanceUnder direction step (search.startedFrom startedAt) =
      ((planner.advanceUnder direction step search).1,
        (planner.advanceUnder direction step search).2.startedFrom startedAt) := by
  have pins := (planner.advanceUnder_touches direction step search).pins
  rw [Search.startedFrom_eq_beside, advanceUnder_beside, Search.startedFrom_eq_beside, pins]

/-- The time at which a query was started does not show in the steps of its search. -/
theorem paces_startedFrom : Paces planner planner fun search => search.startedFrom startedAt where
  finished _ := rfl
  turn _ := rfl
  follow steps search := by
    induction steps generalizing search with
    | nil => rfl
    | cons step steps ih =>
        rw [follow, follow, advanceUnder_startedFrom]
        exact ih _
  stop _ _ := rfl

/-- Steps take the same labels at any time. -/
theorem taken_startedFrom (steps : List (Step W)) :
    planner.taken steps (search.startedFrom startedAt) = planner.taken steps search := by
  induction steps generalizing search with
  | nil => rfl
  | cons step steps ih =>
      rw [taken, taken, advanceUnder_startedFrom, ih]
      rfl

theorem planted_startedFrom (source target : NodeId) (sourceWeight targetWeight : W)
    (now later : Nat) :
    planner.planted source sourceWeight target targetWeight later (search.startedFrom startedAt) =
      (planner.planted source sourceWeight target targetWeight now search).startedFrom
        (some later) := by
  have pins := (planner.planted_frame source sourceWeight target targetWeight now search).2.2
  rw [Search.startedFrom_eq_beside,
    planted_beside planner search ⟨search.pins, startedAt, .both false⟩ source target sourceWeight
      targetWeight now later rfl, Search.startedFrom_eq_beside, pins]

theorem takenBySeed_startedFrom (source target : NodeId) (sourceWeight targetWeight : W)
    (now later : Nat) :
    planner.takenBySeed source sourceWeight target targetWeight later
        (search.startedFrom startedAt) =
      planner.takenBySeed source sourceWeight target targetWeight now search := by
  unfold takenBySeed
  rw [planner.planted_startedFrom search startedAt source target sourceWeight targetWeight now
    later, taken_startedFrom]
  rfl

theorem seed_startedFrom (source target : NodeId) (sourceWeight targetWeight : W)
    (now later : Nat) :
    planner.seed source sourceWeight target targetWeight later (search.startedFrom startedAt) =
      (planner.seed source sourceWeight target targetWeight now search).startedFrom
        (some later) := by
  have pins := (planner.seed_frame search source target sourceWeight targetWeight now).1
  rw [Search.startedFrom_eq_beside,
    planner.seed_beside search ⟨search.pins, startedAt, .both false⟩ source target sourceWeight
      targetWeight now later rfl, Search.startedFrom_eq_beside, pins]

end Steps

/-- A query that brings its pins along takes what it takes step by step under these pins. -/
theorem takenByCall_route (planner : Planner W X S) (clock : Clock) (source target : NodeId)
    (sourceEdge targetEdge : Option EdgeId) (search : Search W X S) :
    planner.takenByCall clock (.route source sourceEdge target targetEdge) search =
      match planner.check (search.withPins ⟨sourceEdge, targetEdge⟩) source target with
      | .error _ => []
      | .ok _ =>
          planner.takenBySeed source Weight.zero target Weight.zero (clock 0)
              (search.withPins ⟨sourceEdge, targetEdge⟩) ++
            planner.takenByRun (fun reading => clock (reading + 1))
              (planner.seed source Weight.zero target Weight.zero (clock 0)
                (search.withPins ⟨sourceEdge, targetEdge⟩)) := rfl

section Calls

variable (noTime : planner.settings.timeoutMs = none) (clock other : Clock)
  (search : Search W X S) (startedAt : Option Nat)

include noTime

theorem takenByRun_startedFrom :
    planner.takenByRun other (search.startedFrom startedAt) = planner.takenByRun clock search := by
  have alike (moment : Search W X S) (reading : Nat) :
      planner.reachedLimit? (moment.startedFrom (some (startedAt.getD (other 0))))
          (other (reading + 1)) =
        planner.reachedLimit? moment (clock (reading + 1)) := by
    rw [reachedLimit?, reachedLimit?, noTime]
    rfl
  obtain ⟨steps, taken, takenToo⟩ := (planner.paces_startedFrom _).takenByRun_eq search
    (search.startedFrom startedAt) rfl fun moment reading _ => alike moment reading
  rw [taken, takenToo, taken_startedFrom]

theorem run_startedFrom :
    planner.run other (search.startedFrom startedAt) =
      (planner.run clock search).startedFrom (some (startedAt.getD (other 0))) :=
  planner.run_anytime noTime clock other startedAt

theorem takenByCall_startedFrom (call : Call W) :
    planner.takenByCall other call (search.startedFrom startedAt) =
      planner.takenByCall clock call search := by
  cases call with
  | start source sourceWeight target targetWeight =>
      dsimp only [takenByCall]
      rw [check_startedFrom]
      cases planner.check search source target with
      | error fault => rfl
      | ok => exact planner.takenBySeed_startedFrom search startedAt source target _ _ _ _
  | run => exact takenByRun_startedFrom noTime clock other search startedAt
  | advance direction => exact planner.taken_startedFrom search startedAt _
  | result => rfl
  | route source sourceEdge target targetEdge =>
      have pinned : (search.startedFrom startedAt).withPins ⟨sourceEdge, targetEdge⟩ =
          (search.withPins ⟨sourceEdge, targetEdge⟩).startedFrom startedAt := rfl
      rw [takenByCall_route, takenByCall_route, pinned, check_startedFrom]
      cases planner.check (search.withPins ⟨sourceEdge, targetEdge⟩) source target with
      | error fault => rfl
      | ok =>
          dsimp only
          rw [planner.takenBySeed_startedFrom _ _ _ _ _ _ (clock 0),
            planner.seed_startedFrom _ _ _ _ _ _ (clock 0),
            takenByRun_startedFrom noTime fun reading => clock (reading + 1)]
  | pin direction edge => rfl
  | restrict filter => rfl

theorem perform_startedFrom (call : Call W) :
    ∃ later, planner.perform other call (search.startedFrom startedAt) =
      ((planner.perform clock call search).1,
        (planner.perform clock call search).2.startedFrom later) := by
  cases call with
  | start source sourceWeight target targetWeight =>
      dsimp only [perform, start]
      rw [check_startedFrom]
      cases planner.check search source target with
      | error fault => exact ⟨startedAt, rfl⟩
      | ok =>
          exact ⟨some (other 0), congrArg (Answer.done, ·)
            (planner.seed_startedFrom search startedAt source target _ _ _ _)⟩
  | run =>
      exact ⟨_, congrArg (Answer.done, ·) (run_startedFrom noTime clock other search startedAt)⟩
  | advance direction =>
      refine ⟨startedAt, ?_⟩
      dsimp only [perform, advance]
      rw [advanceUnder_startedFrom]
  | result => exact ⟨startedAt, rfl⟩
  | route source sourceEdge target targetEdge =>
      dsimp only [perform]
      cases seeded : search.seeded with
      | true =>
          have seededToo : (search.startedFrom startedAt).seeded = true := seeded
          rw [route_again seeded, route_again seededToo]
          exact ⟨startedAt, rfl⟩
      | false =>
          have unseeded : (search.startedFrom startedAt).seeded = false := seeded
          have pinned : (search.startedFrom startedAt).withPins ⟨sourceEdge, targetEdge⟩ =
              (search.withPins ⟨sourceEdge, targetEdge⟩).startedFrom startedAt := rfl
          rw [route_eq seeded, route_eq unseeded, pinned]
          unfold routeWeighted start
          rw [check_startedFrom]
          cases planner.check (search.withPins ⟨sourceEdge, targetEdge⟩) source target with
          | error fault => exact ⟨startedAt, rfl⟩
          | ok =>
              refine ⟨some (other 0), ?_⟩
              dsimp only [bind, Except.bind, pure, Except.pure]
              rw [planner.seed_startedFrom _ _ _ _ _ _ (clock 0),
                run_startedFrom noTime fun reading => clock (reading + 1)]
              rfl
  | pin direction edge => exact ⟨startedAt, rfl⟩
  | restrict filter => exact ⟨startedAt, rfl⟩

/-- Any calls are answered alike at any time, and take the same labels. -/
theorem performAll_startedFrom (calls : List (Call W)) :
    ∃ later, planner.performAll other calls (search.startedFrom startedAt) =
        ((planner.performAll clock calls search).1,
          (planner.performAll clock calls search).2.startedFrom later) ∧
      planner.takenByAll other calls (search.startedFrom startedAt) =
        planner.takenByAll clock calls search := by
  induction calls generalizing search startedAt with
  | nil => exact ⟨startedAt, rfl, rfl⟩
  | cons call calls ih =>
      obtain ⟨next, performed⟩ := perform_startedFrom noTime clock other search startedAt call
      obtain ⟨later, same, sameTaken⟩ := ih (planner.perform clock call search).2 next
      refine ⟨later, ?_, ?_⟩
      · dsimp only [performAll]
        rw [performed, same]
      · rw [takenByAll, takenByAll, performed, sameTaken,
          takenByCall_startedFrom noTime clock other]

end Calls

end Planner

end RouteSearch
