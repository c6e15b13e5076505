/-
This file proves that any calls lead a search along a course, and that a search on a course is
made by single events.
-/

import RouteSearch.Search.Course
import RouteSearch.Proofs.Chronicle

namespace RouteSearch

variable {W X S : Type}

namespace Takings

variable {past more : Takings W X} {direction : Direction}

@[simp] theorem of_append (past more : Takings W X) (direction : Direction) :
    of (past ++ more) direction = past.of direction ++ more.of direction := by
  simp [of]

/-- What a direction takes counts for this direction. -/
@[simp] theorem of_own (direction : Direction) (taking : Option (Taking W X)) :
    of (taking.toList.map (direction, ·)) direction = taking.toList := by
  cases taking <;> simp [of]

/-- What a direction takes does not count for the other one. -/
@[simp] theorem of_opposite (direction : Direction) (taking : Option (Taking W X)) :
    of (taking.toList.map (direction, ·)) direction.opposite = [] := by
  cases taking <;> cases direction <;> simp [of, Direction.opposite]

end Takings

namespace Planner

variable [Weight W] {planner : Planner W X S} {first search : Search W X S}
  {takings : Takings W X} {makerState : S}

namespace Course

variable (course : planner.Course first takings search)
include course

/-- A search goes through steps one after another. -/
theorem follow (steps : List (Step W)) :
    planner.Course first (takings ++ planner.taken steps search) (planner.follow steps search) := by
  induction steps generalizing search takings with
  | nil =>
      rw [taken, List.append_nil]
      exact course
  | cons step steps ih =>
      rw [taken, ← List.append_assoc]
      exact ih (course.advance step.direction step.filter)

/-- A query that is let through plants its roots, and takes its first steps. -/
theorem seed {source target : NodeId} (accepted : planner.check search source target = .ok ())
    (sourceWeight targetWeight : W) (now : Nat) :
    planner.Course first
      (takings ++ planner.takenBySeed source sourceWeight target targetWeight now search)
      (planner.seed source sourceWeight target targetWeight now search) := by
  rw [seed_eq_follow, takenBySeed]
  exact (course.plant sourceWeight targetWeight now accepted).follow _

theorem run (clock : Clock) :
    planner.Course first (takings ++ planner.takenByRun clock search)
      (planner.run clock search) := by
  have begun := course.aside search.filter search.pins
    (some (search.startedAt.getD (clock 0))) search.limit
  rcases planner.run_cases clock search with ⟨steps, limit, _, isRun, taken⟩ | ⟨isRun, taken⟩
  · rw [isRun, taken]
    have after := begun.follow steps
    exact after.aside _ _ _ limit
  · rw [isRun, taken, List.append_nil]
    exact begun

theorem perform (clock : Clock) (call : Call W) :
    planner.Course first (takings ++ planner.takenByCall clock call search)
      (planner.perform clock call search).2 := by
  have idle : planner.Course first (takings ++ []) search := by
    rw [List.append_nil]
    exact course
  cases call with
  | start source sourceWeight target targetWeight =>
      unfold takenByCall Planner.perform Planner.start
      dsimp only
      cases checked : planner.check search source target with
      | error fault => exact idle
      | ok => exact course.seed checked sourceWeight targetWeight (clock 0)
  | run => exact course.run clock
  | advance direction => exact course.follow [⟨direction, none⟩]
  | result => exact idle
  | route source sourceEdge target targetEdge =>
      have pinned := course.aside search.filter ⟨sourceEdge, targetEdge⟩ search.startedAt
        search.limit
      unfold takenByCall Planner.perform route Planner.start
      dsimp only
      cases checked : planner.check { search with pins := ⟨sourceEdge, targetEdge⟩ } source
        target with
      | error fault =>
          rw [List.append_nil]
          split
          · exact course
          · exact pinned
      | ok =>
          rw [if_neg (Bool.eq_false_iff.mp (planner.unseeded_of_check checked)),
            ← List.append_assoc]
          exact (pinned.seed checked Weight.zero Weight.zero (clock 0)).run
            fun reading => clock (reading + 1)
  | pin direction edge =>
      exact idle.aside search.filter (search.pins.set direction edge) search.startedAt search.limit
  | restrict filter => exact idle.aside filter search.pins search.startedAt search.limit

/-- Whatever is called, a search stays on a course, and takes what the calls take. -/
theorem performAll (clock : Clock) (calls : List (Call W)) :
    planner.Course first (takings ++ planner.takenByAll clock calls search)
      (planner.performAll clock calls search).2 := by
  induction calls generalizing search takings with
  | nil =>
      rw [takenByAll, List.append_nil]
      exact course
  | cons call calls ih =>
      rw [takenByAll, ← List.append_assoc]
      exact ih (course.perform clock call)

end Course

/-- What a search goes through happens event by event. -/
theorem Course.chronicle (network : planner.network.Lawful) (maker : planner.maker.Lawful)
    (course : planner.Course (.fresh makerState) takings search) :
    ∃ past, planner.Chronicle (.fresh makerState) past search := by
  induction course with
  | start => exact ⟨[], .start⟩
  | plant sourceWeight targetWeight now before accepted ih =>
      obtain ⟨past, chronicle⟩ := ih
      exact ⟨_, chronicle.next (.plant sourceWeight targetWeight now accepted)⟩
  | advance direction step before ih =>
      obtain ⟨past, chronicle⟩ := ih
      have evolves : planner.Evolves (fun _ => True) _ _ :=
        planner.advanceUnder_evolves network maker chronicle direction step
      exact evolves.chronicle chronicle
  | aside filter pins startedAt limit before ih =>
      obtain ⟨past, chronicle⟩ := ih
      exact ⟨_, chronicle.next (.aside rfl rfl rfl)⟩

/-- A search on a course stays blank until a query is let through. -/
theorem Course.blank (course : planner.Course (.fresh makerState) takings search)
    (unseeded : search.seeded = false) : search.Blank := by
  induction course with
  | start => exact ⟨fun side => ⟨false, by cases side <;> rfl⟩, rfl⟩
  | @plant past middle source target sourceWeight targetWeight now before accepted ih =>
      rw [(planner.planted_frame source sourceWeight target targetWeight now middle).1]
        at unseeded
      cases unseeded
  | @advance past middle direction step before ih =>
      rw [(planner.advanceUnder_touches direction step middle).seeded] at unseeded
      exact (ih unseeded).advanceUnder direction step
  | aside filter pins startedAt limit before ih =>
      exact ⟨(ih unseeded).trees, (ih unseeded).best⟩

end Planner

end RouteSearch
