/-
This file proves that a limit on visits cuts a run short and changes nothing else in it.
-/

import RouteSearch.Proofs.EarlyCalls
import RouteSearch.Proofs.Ending

namespace RouteSearch

variable {W X S : Type} [Weight W] {planner : Planner W X S} {search moment last : Search W X S}
  {takings : Takings W X} {makerState : S} {count : Nat}

namespace Planner

/-- The planner with a limit on visits. -/
def limitedTo (planner : Planner W X S) (count : Nat) : Planner W X S :=
  { planner with settings := { planner.settings with maxVisited := some count } }

section Limited

variable (planner : Planner W X S) (count : Nat)

theorem advance_limitedTo : (planner.limitedTo count).advance = planner.advance := rfl

omit [Weight W] in
/-- A limit that is not zero lets the same queries through. -/
theorem check_limitedTo (positive : 0 < count) {source target : NodeId}
    (accepted : planner.check search source target = .ok ()) :
    (planner.limitedTo count).check search source target = .ok () := by
  have notZero : some count ≠ some 0 := fun same => positive.ne' (Option.some.inj same)
  unfold check Settings.check at accepted ⊢
  rw [show (planner.limitedTo count).settings.maxVisited = some count from rfl, if_neg notZero]
  split at accepted
  · cases accepted
  · rename_i unseeded
    rw [if_neg unseeded]
    split at accepted
    · cases accepted
    · exact accepted

omit [Weight W] in
/-- Without a limit on time, only the count of visits can stop a run. -/
theorem reachedLimit?_limitedTo (noTime : planner.settings.timeoutMs = none)
    (search : Search W X S) (now : Nat) :
    (planner.limitedTo count).reachedLimit? search now =
      if count ≤ search.visited then some .visits else none := by
  simp [reachedLimit?, limitedTo, noTime]

end Limited

/-- A run goes on from each of its moments to the same end. -/
theorem Runs.remaining (runs : planner.Runs search moment) (whole : planner.Runs search last)
    (finished : last.finished = true) : planner.Runs moment last := by
  induction runs with
  | here => exact whole
  | on unfinished later ih =>
      cases whole with
      | here => cases unfinished.symm.trans finished
      | on _ rest => exact ih rest

/-- A run up to a moment at which it has not finished has not finished before. -/
theorem Runs.unfinished (runs : planner.Runs search moment)
    (unfinished : moment.finished = false) : search.finished = false := by
  cases runs with
  | here => exact unfinished
  | on begun _ => exact begun

/-- What a limit on visits makes of a run: nothing if the limit is never met before the end of the
run, else it is cut short at the moment at which the limit is met. -/
inductive Cuts (planner : Planner W X S) (count : Nat) (search whole : Search W X S) :
    Search W X S → Prop
  | never (few : ∀ moment, planner.Runs search moment → moment.finished = false →
        moment.visited < count)
      (visited : whole.visited ≤ max count search.visited) : Cuts planner count search whole whole
  | short {moment : Search W X S} (runs : planner.Runs search moment)
      (unfinished : moment.finished = false) (visited : moment.visited = max count search.visited) :
      Cuts planner count search whole { moment with limit := some .visits }

/-- A run that is limited goes on like the unlimited one, until it is cut short. -/
theorem Runs.cuts (runs : planner.Runs search last) (finished : last.finished = true)
    (noTime : planner.settings.timeoutMs = none) (clock : Clock) :
    ∃ after, (planner.limitedTo count).runToEnd? clock search = some after ∧
      planner.Cuts count search { last with limit := none } after := by
  -- The two runs advance alike; a round is left out only where the limit is met.
  induction runs generalizing clock with
  | here search =>
      refine ⟨_, by rw [Planner.runToEnd?, if_pos finished], ?_⟩
      refine .never (fun moment runs unfinished => ?_) (le_max_right _ _)
      cases finished.symm.trans (runs.unfinished unfinished)
  | @on search last unfinished later ih =>
      rw [Planner.runToEnd?, if_neg (Bool.eq_false_iff.mp unfinished),
        reachedLimit?_limitedTo _ _ noTime, advance_limitedTo]
      by_cases met : count ≤ search.visited
      · rw [if_pos met]
        exact ⟨_, rfl, .short (.here search) unfinished (max_eq_right met).symm⟩
      rw [if_neg met]
      obtain ⟨after, isAfter, cuts⟩ := ih finished fun reading => clock (reading + 1)
      refine ⟨after, isAfter, ?_⟩
      have sameMax : max count (planner.advance search.cheaperDirection search).2.visited =
          max count search.visited := by
        have counted := planner.advance_visits_or_finishes search.cheaperDirection none search
        unfold advance
        omega
      cases cuts with
      | never few visited =>
          refine .never (fun moment runs isUnfinished => ?_) (sameMax ▸ visited)
          cases runs with
          | here => exact Nat.lt_of_not_le met
          | on _ onward => exact few moment onward isUnfinished
      | short runs isUnfinished visited =>
          exact .short (.on unfinished runs) isUnfinished (visited.trans sameMax)

end Planner

/-- A query that is planted in a blank search has both of its roots to take. -/
theorem Search.Blank.planted_pop? (blank : search.Blank) (planner : Planner W X S)
    (source target : NodeId) (sourceWeight targetWeight : W) (now : Nat) (side : Direction) :
    let planted := planner.planted source sourceWeight target targetWeight now search
    (planted.tree side).visited = 0 ∧ (planted.tree side).pop?.isSome = true := by
  obtain ⟨makerState, finished, isPlanted⟩ := blank.planted_root planner ⟨source, target⟩
    ⟨sourceWeight, targetWeight⟩ now side
  dsimp only at isPlanted ⊢
  rw [isPlanted]
  refine ⟨rfl, ?_⟩
  simp [SearchTree.pop?, SearchTree.finish, SearchTree.addRoot, SearchTree.add, MinQueue.push,
    MinQueue.place?, MinQueue.siftUp, MinQueue.pop?]

namespace Planner

/-- A query that is answered at once has finished when it is planted. -/
theorem planted_finished {source target : NodeId}
    (none : planner.rootSteps source target search = []) (sourceWeight targetWeight : W)
    (now : Nat) :
    (planner.planted source sourceWeight target targetWeight now search).finished = true := by
  have immediate : source = target ∧ planner.isEdgeBased = true ∧ search.isPinned = false := by
    unfold rootSteps at none
    split at none
    · simp_all
    · cases none
  obtain ⟨same, edgeBased, unpinned⟩ := immediate
  have pinned : (planner.plant .backward target targetWeight
      (planner.plant .forward source sourceWeight
        { search with seeded := true, startedAt := some now })).isPinned = false := unpinned
  apply Search.finished_of_tree .forward
  unfold planted
  dsimp only
  rw [if_pos same, planner.isEdgeBased_eq_true.mp edgeBased]
  dsimp only
  rw [pinned, if_neg Bool.false_ne_true, Search.tree, Sides.get_map]
  rfl

/-- A query that is let through has visited both of its roots, unless it is answered at once. -/
theorem seed_visited (planner : Planner W X S) (blank : search.Blank) (source target : NodeId)
    (sourceWeight targetWeight : W) (now : Nat) :
    let begun := planner.seed source sourceWeight target targetWeight now search
    begun.visited ≤ 2 ∧ (begun.finished = false → begun.visited = 2) := by
  have roots := blank.planted_pop? planner source target sourceWeight targetWeight now
  have atOnce (none : planner.rootSteps source target search = []) :=
    planner.planted_finished none sourceWeight targetWeight now
  dsimp only at roots ⊢
  rw [seed_eq_follow]
  generalize planner.planted source sourceWeight target targetWeight now search = planted
    at roots atOnce ⊢
  have unvisited : planted.visited = 0 :=
    congrArg₂ (· + ·) (roots .forward).1 (roots .backward).1
  have both (first second : Option (ArcFilter W)) :
      (planner.follow [⟨.forward, first⟩, ⟨.backward, second⟩] planted).visited = 2 := by
    have there : (planner.advanceUnder .forward first planted).2.tree .backward =
        planted.tree .backward := (planner.advanceUnder_touches .forward first planted).there
    change Search.visited (planner.advanceUnder .backward second _).2 = 2
    rw [visited_advanceUnder, visited_advanceUnder, there, unvisited,
      (roots .forward).2, (roots .backward).2]
    rfl
  unfold rootSteps at atOnce ⊢
  split
  · rename_i immediate
    rw [if_pos immediate] at atOnce
    refine ⟨unvisited.le.trans (Nat.zero_le 2), fun unfinished => ?_⟩
    cases unfinished.symm.trans (atOnce rfl)
  · exact ⟨(both _ _).le, fun _ => both _ _⟩

/-- There is no route before a search has finished. -/
theorem result_of_unfinished (unfinished : search.finished = false) :
    planner.result search = .ok none := by
  rw [result, unfinished]

/-- A query that is let through is answered after its run. -/
theorem route_of_check {source target : NodeId} {sourceEdge targetEdge : Option EdgeId}
    (accepted : planner.check (search.withPins ⟨sourceEdge, targetEdge⟩) source target = .ok ())
    (clock : Clock)
    (ran : planner.runToEnd? (fun reading => clock (reading + 2))
      (planner.seed source Weight.zero target Weight.zero (clock 0)
        (search.withPins ⟨sourceEdge, targetEdge⟩)) = some last) :
    planner.route source sourceEdge target targetEdge clock search =
      (planner.result last, last) := by
  have unseeded : (search.withPins ⟨sourceEdge, targetEdge⟩).seeded = false :=
    planner.unseeded_of_check accepted
  have started := (planner.seed_frame (search.withPins ⟨sourceEdge, targetEdge⟩) source target
    Weight.zero Weight.zero (clock 0)).2
  change search.seeded = false at unseeded
  rw [route_eq unseeded, routeWeighted, start_of_check accepted]
  dsimp only [run]
  generalize planner.seed source Weight.zero target Weight.zero (clock 0) _ = begun
    at started ran ⊢
  rw [show { begun with startedAt := some (begun.startedAt.getD (clock (0 + 1))) } = begun by
    rw [started, Option.getD_some, ← started], ran]
  rfl

end Planner

/-- A limit on visits cuts a query short and changes nothing else, whatever the network is, if the
run without it ends. With it, the query gives the same answer and the same search; or it gives no
route, and leaves the search as it was at the moment of the run at which it had visited as many
labels as the limit allows, but no less than both roots. A query that a limit does not cut short is
not cut short by a larger one. -/
theorem visit_limit_cuts_run (noVisits : planner.settings.maxVisited = none)
    (noTime : planner.settings.timeoutMs = none)
    (course : planner.Course (.fresh makerState) takings search) {source target : NodeId}
    {sourceEdge targetEdge : Option EdgeId}
    (accepted : planner.check (search.withPins ⟨sourceEdge, targetEdge⟩) source target = .ok ())
    (clock : Clock)
    (runs : planner.Runs (planner.seed source Weight.zero target Weight.zero (clock 0)
      (search.withPins ⟨sourceEdge, targetEdge⟩)) last)
    (finished : last.finished = true) :
    let begun := planner.seed source Weight.zero target Weight.zero (clock 0)
      (search.withPins ⟨sourceEdge, targetEdge⟩)
    let full := planner.route source sourceEdge target targetEdge clock search
    let cut (count : Nat) :=
      (planner.limitedTo count).route source sourceEdge target targetEdge clock search
    full = (planner.result last, { last with limit := none }) ∧
      ∀ count, 0 < count →
        (cut count).2.visited ≤ max count 2 ∧
        (cut count = full ∨
          (cut count).1 = .ok none ∧ (cut count).2.finished = false ∧
            (cut count).2.visited = max count 2 ∧
            ∃ moment, planner.Runs begun moment ∧ planner.Runs moment last ∧
              (cut count).2 = { moment with limit := some .visits }) ∧
        (cut count = full → ∀ larger, count ≤ larger → cut larger = full) := by
  intro begun full cut
  have unseeded : (search.withPins ⟨sourceEdge, targetEdge⟩).seeded = false :=
    planner.unseeded_of_check accepted
  have blank : (search.withPins ⟨sourceEdge, targetEdge⟩).Blank :=
    ⟨(course.blank unseeded).trees, (course.blank unseeded).best⟩
  obtain ⟨atMost, underway⟩ :=
    planner.seed_visited blank source target Weight.zero Weight.zero (clock 0)
  have isFull : full = (planner.result last, { last with limit := none }) :=
    planner.route_of_check accepted clock (runs.runToEnd? finished noVisits noTime _)
  have outcome (count : Nat) (positive : 0 < count) :
      ∃ after, planner.Cuts count begun { last with limit := none } after ∧
        cut count = (planner.result after, after) := by
    obtain ⟨after, ran, cuts⟩ :=
      runs.cuts finished noTime fun reading => clock (reading + 2)
    exact ⟨after, cuts, (planner.limitedTo count).route_of_check
      (planner.check_limitedTo count positive accepted) clock ran⟩
  have fewer {count : Nat} : max count begun.visited ≤ max count 2 := max_le_max_left count atMost
  refine ⟨isFull, fun count positive => ?_⟩
  obtain ⟨after, cuts, isCut⟩ := outcome count positive
  rw [isCut]
  cases cuts with
  | never few visited =>
      refine ⟨visited.trans fewer, .inl isFull.symm, fun _ larger atLeast => ?_⟩
      obtain ⟨after, cuts, isCut⟩ := outcome larger (positive.trans_le atLeast)
      cases cuts with
      | never => exact isCut.trans isFull.symm
      | short runsTo unfinished reached =>
          have early := few _ runsTo unfinished
          omega
  | @short moment runsTo unfinished visited =>
      have met : moment.visited = max count 2 := by
        rw [visited, underway (runsTo.unfinished unfinished)]
      refine ⟨met.le, .inr ?_, fun same => ?_⟩
      · exact ⟨planner.result_of_unfinished unfinished, unfinished, met, moment, runsTo,
          runsTo.remaining runs finished, rfl⟩
      · cases congrArg (·.2.limit) (same.trans isFull)

/-- With two visits, a query over the detour stops at its roots. -/
theorem visit_limit_cuts_run_detour :
    let begun := Planner.overDetour.seed 0 Weight.zero 3 Weight.zero 0 (.fresh ())
    let cut := (Planner.overDetour.limitedTo 2).route 0 none 3 none (fun _ => 0) (.fresh ())
    cut.1 = .ok none ∧ ∃ last moment, Planner.overDetour.Runs begun moment ∧
      Planner.overDetour.Runs moment last ∧ last.finished = true ∧ moment.visited = 2 ∧
      cut.2 = { moment with limit := some .visits } := by
  intro begun cut
  have met : cut.2.limit = some .visits := by cbv
  have network : Planner.overDetour.network = EdgeList.detour.pack.network := rfl
  have accepted : Planner.overDetour.check
      ((.fresh () : Search Exact Unit Unit).withPins ⟨none, none⟩) 0 3 = .ok () := rfl
  have begins : Planner.overDetour.Course (.fresh ()) _ begun :=
    Planner.Course.start.seed accepted Weight.zero Weight.zero 0
  obtain ⟨last, runs, finished⟩ := begins.runs network LabelMaker.plain_lawful
  obtain ⟨whole, cuts⟩ := visit_limit_cuts_run rfl rfl .start accepted (fun _ => 0) runs finished
  obtain ⟨_, same | ⟨noRoute, _, visited, moment, runsTo, runsOn, isCut⟩, _⟩ := cuts 2 Nat.two_pos
  · cases met.symm.trans (congrArg (·.2.limit) (same.trans whole))
  · refine ⟨noRoute, last, moment, runsTo, runsOn, finished, ?_, isCut⟩
    rw [isCut] at visited
    exact visited

end RouteSearch
