/-
This file proves that a search may be advanced in any order: whatever ends it, it has found the
least cost, and going on changes nothing of its answer.
-/

import RouteSearch.Proofs.Answer
import RouteSearch.Search.Call

namespace RouteSearch

variable {X S : Type} {planner : Planner Exact X S} {query : Query}
  {search after : Search Exact X S} {list : EdgeList Exact}

/-- The calls that go on with a query, or only read it. -/
inductive Call.GoesOn : Call Exact → Prop where
  | run : GoesOn .run
  | advance (direction : Direction) : GoesOn (.advance direction)
  | result : GoesOn .result

/-- Calls that go on with a query keep its search going. -/
theorem Started.performAll (lawful : planner.Lawful) (started : Started planner query search)
    (clock : Clock) {calls : List (Call Exact)} (goesOn : ∀ call ∈ calls, call.GoesOn) :
    Started planner query (planner.performAll clock calls search).2 ∧
      search.Extends (planner.performAll clock calls search).2 := by
  induction calls generalizing search with
  | nil => exact ⟨started, .refl search⟩
  | cons call calls ih =>
      have next : Started planner query (planner.perform clock call search).2 ∧
          search.Extends (planner.perform clock call search).2 := by
        cases goesOn call List.mem_cons_self with
        | run => exact started.run lawful clock
        | advance direction =>
            obtain ⟨advanced, extends_, _⟩ := started.advance lawful direction
            exact ⟨advanced, extends_⟩
        | result => exact ⟨started, .refl search⟩
      obtain ⟨later, extendsLater⟩ := ih next.1 fun other member =>
        goesOn other (List.mem_cons_of_mem call member)
      exact ⟨later, next.2.trans extendsLater⟩

/-- A finished search stays finished. The labels last settled only become dearer, and the best
meeting only cheaper. -/
theorem Started.finished_extends (started : Started planner query search)
    (later : Started planner query after) (extends_ : search.Extends after)
    (finished : search.finished = true) : after.finished = true := by
  unfold Search.finished at finished ⊢
  rw [Bool.or_eq_true, Bool.or_eq_true] at finished ⊢
  rcases finished with (isFinished | isFinished) | isBeaten
  · exact .inl (.inl ((extends_.grows .forward).finished isFinished))
  · exact .inl (.inr ((extends_.grows .backward).finished isFinished))
  · obtain ⟨forward, orderedForward⟩ := (started.underway.grown .forward).ordered
    obtain ⟨backward, orderedBackward⟩ := (started.underway.grown .backward).ordered
    obtain ⟨forwardLater, atMostForward, isForward⟩ :=
      (extends_.grows .forward).last orderedForward.last
    obtain ⟨backwardLater, atMostBackward, isBackward⟩ :=
      (extends_.grows .backward).last orderedBackward.last
    rw [show search.trees.forward.lastWeight = _ from orderedForward.last,
      show search.trees.backward.lastWeight = _ from orderedBackward.last, Exact.finite_add,
      started.underway.met.proper.isBeaten_iff] at isBeaten
    right
    rw [show after.trees.forward.lastWeight = _ from isForward,
      show after.trees.backward.lastWeight = _ from isBackward, Exact.finite_add,
      later.underway.met.proper.isBeaten_iff]
    exact (extends_.improves.beats isBeaten).mono (add_le_add atMostForward atMostBackward)

/-- Any order of advances ends a search, if there are enough of them. -/
theorem Started.performAll_finished (lawful : planner.Lawful)
    (started : Started planner query search) (clock : Clock) (schedule : List Direction)
    (enough : 2 * (2 * planner.network.edgeCount + 1) < search.visited + schedule.length) :
    (planner.performAll clock (schedule.map .advance) search).2.finished = true := by
  induction schedule generalizing search with
  | nil =>
      have bound := started.underway.visited_le lawful.network
      rw [List.length_nil] at enough
      omega
  | cons direction schedule ih =>
      obtain ⟨advanced, _, steps⟩ := started.advance lawful direction
      rcases steps.visited_or_finished with counted | finished
      · rw [List.length_cons] at enough
        have enoughLater : 2 * (2 * planner.network.edgeCount + 1) <
            (planner.advance direction search).2.visited + schedule.length := by
          omega
        exact ih advanced enoughLater
      · have goesOn : ∀ call ∈ schedule.map Call.advance, call.GoesOn := by
          intro call member
          obtain ⟨side, _, rfl⟩ := List.mem_map.mp member
          exact .advance side
        obtain ⟨later, extends_⟩ := advanced.performAll lawful clock goesOn
        exact advanced.finished_extends later extends_ finished

/-- A finished search keeps its best meeting and the labels at its ends. -/
theorem Started.best_extends (prices : planner.Prices query)
    (named : planner.settings.stateKind = .nodeBased →
      ∀ node, ∀ arc ∈ planner.network.arcs node, arc.edge ≠ noEdge)
    (started : Started planner query search) (tracks : planner.settings.tracksMeeting = true)
    (finished : search.finished = true) (later : Started planner query after)
    (extends_ : search.Extends after) :
    after.best = search.best ∧ ∀ meeting, search.best = some meeting → ∀ direction,
      (after.tree direction).label? (meeting.ends.get direction) =
        (search.tree direction).label? (meeting.ends.get direction) := by
  rcases extends_.improves with same | ⟨value, isBest, cheaper⟩
  · exact same
  · have least := started.leastCost prices named tracks finished
    have leastLater := later.leastCost prices named tracks
      (started.finished_extends later extends_ finished)
    rw [← leastLater.unique least] at cheaper
    exact absurd (cheaper value isBest) (lt_irrefl value)

/-- A finished search answers the same, however it goes on. -/
theorem Started.result_extends (prices : planner.Prices query)
    (named : planner.settings.stateKind = .nodeBased →
      ∀ node, ∀ arc ∈ planner.network.arcs node, arc.edge ≠ noEdge)
    (started : Started planner query search) (tracks : planner.settings.tracksMeeting = true)
    (finished : search.finished = true) :
    ∃ found, ∀ after, Started planner query after → search.Extends after →
      planner.result after = .ok found := by
  have kept {after : Search Exact X S} (later : Started planner query after)
      (extends_ : search.Extends after) :=
    started.best_extends prices named tracks finished later extends_
  cases best : search.best with
  | none =>
      refine ⟨none, fun after later extends_ => ?_⟩
      unfold Planner.result
      rw [(kept later extends_).1, best, started.finished_extends later extends_ finished]
  | some meeting =>
      obtain ⟨_, _, route, _, _, _, read⟩ := started.result_route prices.toMeasures best
      refine ⟨some route, fun after later extends_ => ?_⟩
      obtain ⟨sameBest, labels⟩ := kept later extends_
      exact read after extends_ (started.finished_extends later extends_ finished)
        (sameBest.trans best) (labels meeting best)

/-- A search that was started may be advanced in any order, and run in between. Once it has
finished it stays so, its best meeting weighs the least cost of the query, and its answer stays
the same. -/
theorem anyOrder_leastCost (serves : planner.Serves list)
    (few : planner.settings.stateKind = .nodeBased → list.edges.size ≤ noEdge)
    (tracks : planner.settings.tracksMeeting = true) (unused : search.IsUnused)
    (unoriented : ArcFilter.Unoriented list.pack.network search.filter)
    {source target : NodeId} {now : Nat} {begun : Search Exact X S}
    (accepted : planner.start source Weight.zero target Weight.zero now search = .ok begun)
    {clock : Clock} {calls : List (Call Exact)} (goesOn : ∀ call ∈ calls, call.GoesOn)
    (finished : (planner.performAll clock calls begun).2.finished = true) :
    (∀ later more, (∀ call ∈ more, call.GoesOn) →
      (planner.performAll later more (planner.performAll clock calls begun).2).2.finished =
        true) ∧
    Walk.IsLeastCost list.pack.network planner.pricing search.filter search.pins source target
      (planner.performAll clock calls begun).2.bestWeight ∧
    ((planner.performAll clock calls begun).2.bestWeight = .infinity ↔ ¬ ∃ walk,
      Walk.Admissible list.pack.network search.filter search.pins source target walk ∧
        Weight.isFinite (Walk.cost planner.pricing noEdge walk) = true) ∧
    (∀ other others, (∀ call ∈ others, call.GoesOn) →
      (planner.performAll other others begun).2.finished = true →
      (planner.performAll other others begun).2.bestWeight =
        (planner.performAll clock calls begun).2.bestWeight) ∧
    ∃ found, ∀ later more, (∀ call ∈ more, call.GoesOn) →
      planner.result (planner.performAll later more (planner.performAll clock calls begun).2).2 =
        .ok found := by
  have prices : planner.Prices (.between source target search.pins search.filter) :=
    serves.prices (serves.network ▸ unoriented) rfl
  have lawful := prices.toLawful
  have named := serves.named few
  have started := unused.start lawful accepted
  obtain ⟨ended, _⟩ := started.performAll lawful clock goesOn
  have leastCost := ended.leastCost prices named tracks finished
  have least : Walk.IsLeastCost list.pack.network planner.pricing search.filter search.pins source
      target (planner.performAll clock calls begun).2.bestWeight := serves.network ▸ leastCost
  refine ⟨fun later more goesOnLater => ?_, least, ?_,
    fun other others goesOnOther finishedOther => ?_, ?_⟩
  · obtain ⟨wentOn, extends_⟩ := ended.performAll lawful later goesOnLater
    exact ended.finished_extends wentOn extends_ finished
  · rw [← least.isFinite_iff ended.underway.met.proper.bestWeight]
    rcases ended.underway.met.proper.bestWeight with endless | ⟨value, isBest⟩
    · rw [endless]
      exact ⟨fun _ => Bool.false_ne_true, fun _ => rfl⟩
    · simp [isBest]
  · obtain ⟨endedOther, _⟩ := started.performAll lawful other goesOnOther
    exact (endedOther.leastCost prices named tracks finishedOther).unique leastCost
  · obtain ⟨found, same⟩ := ended.result_extends prices named tracks finished
    refine ⟨found, fun later more goesOnLater => ?_⟩
    obtain ⟨wentOn, extends_⟩ := ended.performAll lawful later goesOnLater
    exact same _ wentOn extends_

theorem anyOrder_leastCost_streets : ∃ begun : Search Exact Unit Unit,
    Planner.overStreets.start 0 Weight.zero 2 Weight.zero 0 (.fresh ()) = .ok begun ∧
      let after := (Planner.overStreets.performAll (fun _ => 0)
        ((List.replicate 11 Direction.forward).map .advance) begun).2
      after.finished = true ∧
      (∀ later more, (∀ call ∈ more, call.GoesOn) →
        (Planner.overStreets.performAll later more after).2.finished = true) ∧
      Walk.IsLeastCost EdgeList.streets.pack.network Planner.overStreets.pricing none (.both none)
        0 2 after.bestWeight ∧
      (after.bestWeight = .infinity ↔ ¬ ∃ walk,
        Walk.Admissible EdgeList.streets.pack.network none (.both none) 0 2 walk ∧
          Weight.isFinite (Walk.cost Planner.overStreets.pricing noEdge walk) = true) ∧
      (∀ other others, (∀ call ∈ others, call.GoesOn) →
        (Planner.overStreets.performAll other others begun).2.finished = true →
        (Planner.overStreets.performAll other others begun).2.bestWeight = after.bestWeight) ∧
      ∃ found, ∀ later more, (∀ call ∈ more, call.GoesOn) →
        Planner.overStreets.result (Planner.overStreets.performAll later more after).2 =
          .ok found := by
  have unused := Search.fresh_isUnused (X := Unit) () none
  have prices : Planner.overStreets.Prices (.between 0 2 (.both none) none) :=
    Planner.overStreets_serves.prices (fun _ _ _ => rfl) rfl
  have accepted : Planner.overStreets.start 0 Weight.zero 2 Weight.zero 0 (.fresh ()) =
      .ok (Planner.overStreets.seed 0 Weight.zero 2 Weight.zero 0 (.fresh ())) := rfl
  have started := unused.start prices.toLawful accepted
  have goesOn : ∀ call ∈ (List.replicate 11 Direction.forward).map Call.advance,
      call.GoesOn := by
    intro call member
    obtain ⟨side, _, rfl⟩ := List.mem_map.mp member
    exact .advance side
  have finished := started.performAll_finished prices.toLawful (fun _ => 0)
    (List.replicate 11 .forward) (by
      rw [List.length_replicate]
      exact Nat.lt_add_left _ (by decide))
  exact ⟨_, accepted, finished, anyOrder_leastCost Planner.overStreets_serves nofun rfl unused
    (fun _ _ _ => rfl) accepted goesOn finished⟩

end RouteSearch
