/-
This file says what any calls keep, and that a search on which no query was started is blank.
-/

import RouteSearch.Proofs.History

namespace RouteSearch

variable {W X S : Type} [Weight W] {planner : Planner W X S} {P : Search W X S → Prop}

/-- The property looks at the trees of a search and their best meeting only. Advances keep it,
and so do queries that are accepted. -/
structure Planner.Invariant (planner : Planner W X S) (P : Search W X S → Prop) : Prop where
  congr : ∀ search after, after.trees = search.trees → after.best = search.best →
    after.seeded = search.seeded → P search → P after
  advance : ∀ {search} direction, P search → P (planner.advance direction search).2
  seed : ∀ {search} source sourceWeight target targetWeight now, search.seeded = false →
    P search → P (planner.seed source sourceWeight target targetWeight now search)

namespace Planner.Invariant

variable {search : Search W X S}

theorem run (invariant : planner.Invariant P) (clock : Clock) (holds : P search) :
    P (planner.run clock search) :=
  planner.run_keeps (P := P) (fun search _ _ => invariant.congr search _ rfl rfl rfl)
    (fun _ direction => invariant.advance direction) clock holds

theorem start (invariant : planner.Invariant P) {source target : NodeId}
    {sourceWeight targetWeight : W} {now : Nat} {begun : Search W X S} (holds : P search)
    (accepted : planner.start source sourceWeight target targetWeight now search = .ok begun) :
    P begun := by
  obtain ⟨rfl, checked⟩ := planner.start_eq_ok accepted
  exact invariant.seed _ _ _ _ _ (planner.unseeded_of_check checked) holds

theorem perform (invariant : planner.Invariant P) (clock : Clock) (call : Call W)
    (holds : P search) : P (planner.perform clock call search).2 := by
  cases call with
  | start source sourceWeight target targetWeight =>
      unfold Planner.perform
      dsimp only
      split
      · exact holds
      · rename_i accepted
        exact invariant.start holds accepted
  | run => exact invariant.run clock holds
  | advance direction => exact invariant.advance direction holds
  | result => exact holds
  | route source sourceEdge target targetEdge =>
      have pinned : P { search with pins := ⟨sourceEdge, targetEdge⟩ } :=
        invariant.congr search _ rfl rfl rfl holds
      unfold Planner.perform Planner.route
      dsimp only
      split
      · exact holds
      · split
        · exact pinned
        · rename_i accepted
          exact invariant.run (fun reading => clock (reading + 1))
            (invariant.start pinned accepted)
  | pin direction edge => exact invariant.congr search _ rfl rfl rfl holds
  | restrict filter => exact invariant.congr search _ rfl rfl rfl holds

/-- What a call keeps, all calls keep. -/
theorem performAll (invariant : planner.Invariant P) (clock : Clock) (calls : List (Call W))
    (holds : P search) : P (planner.performAll clock calls search).2 := by
  induction calls generalizing search with
  | nil => exact holds
  | cons call calls ih => exact ih (invariant.perform clock call holds)

end Planner.Invariant

/-- Nothing was planted in the search yet. Its directions may have finished all the same. -/
structure Search.Blank (search : Search W X S) : Prop where
  trees : ∀ side, ∃ finished, search.tree side = ({} : SearchTree W X).finish finished
  best : search.best = none

omit [Weight W] in
/-- A direction of a blank search may finish. -/
theorem Search.Blank.finish {search : Search W X S} (blank : search.Blank)
    (direction : Direction) :
    (search.withTree direction ((search.tree direction).finish true)).Blank where
  trees side := by
    rcases Direction.eq_or_opposite direction side with rfl | rfl
    · obtain ⟨finished, empty⟩ := blank.trees side
      exact ⟨true, by rw [tree_withTree, empty]; rfl⟩
    · rw [tree_opposite_withTree]
      exact blank.trees _
  best := blank.best

theorem Search.Blank.pop? {search : Search W X S} (blank : search.Blank) (direction : Direction) :
    (search.tree direction).pop? = none := by
  obtain ⟨finished, empty⟩ := blank.trees direction
  rw [empty]
  rfl

/-- A step finds nothing in a blank search, and finishes its direction. -/
theorem Search.Blank.advanceUnder {search : Search W X S} (blank : search.Blank)
    (direction : Direction) (step : Option (ArcFilter W)) :
    (planner.advanceUnder direction step search).2.Blank := by
  rw [planner.advanceUnder_of_stuck step (blank.pop? direction)]
  exact blank.finish direction

theorem Search.Blank.advance {search : Search W X S} (blank : search.Blank)
    (direction : Direction) : (planner.advance direction search).2.Blank :=
  blank.advanceUnder direction none

theorem Search.blank_invariant (planner : Planner W X S) :
    planner.Invariant fun search => search.seeded = false → search.Blank where
  congr _ _ trees best seeded blank unseeded := by
    obtain ⟨empty, none⟩ := blank (seeded ▸ unseeded)
    exact ⟨fun side => (empty side).imp fun _ => (congrArg (Sides.get · side) trees).trans,
      best.trans none⟩
  advance {search} direction blank unseeded := by
    rw [Planner.advance, (planner.advanceUnder_touches direction none search).seeded] at unseeded
    exact (blank unseeded).advance direction
  seed source sourceWeight target targetWeight now _ _ unseeded := by
    rw [Planner.seed_seeded] at unseeded
    cases unseeded

/-- Whatever is called, a search stays blank until a query is accepted. -/
theorem Planner.performAll_blank (planner : Planner W X S) (clock : Clock) (calls : List (Call W))
    (makerState : S)
    (unseeded : (planner.performAll clock calls (.fresh makerState)).2.seeded = false) :
    (planner.performAll clock calls (.fresh makerState)).2.Blank := by
  apply (Search.blank_invariant planner).performAll clock calls ?_ unseeded
  intro _
  exact ⟨fun side => ⟨false, by cases side <;> rfl⟩, rfl⟩

section Roots

variable {search : Search W X S} {planner : Planner W X S}

/-- A query that is planted in a blank search has one root in each tree, as its maker makes it. -/
theorem Search.Blank.planted_root (blank : search.Blank) (planner : Planner W X S)
    (ends : Sides NodeId) (weights : Sides W) (now : Nat) (side : Direction) :
    ∃ makerState finished, (planner.planted ends.forward weights.forward ends.backward
        weights.backward now search).tree side =
      (({} : SearchTree W X).addRoot (planner.rootKey (ends.get side))
        (planner.maker.root makerState (ends.get side) (weights.get side) side).1).finish
          finished := by
  have both : ∃ makerState finished, Search.tree (planner.plant .backward ends.backward
      weights.backward (planner.plant .forward ends.forward weights.forward
        { search with seeded := true, startedAt := some now })) side =
      (({} : SearchTree W X).addRoot (planner.rootKey (ends.get side))
        (planner.maker.root makerState (ends.get side) (weights.get side) side).1).finish
          finished := by
    obtain ⟨finished, empty⟩ := blank.trees side
    cases side with
    | forward =>
        refine ⟨search.makerState, finished, ?_⟩
        change (search.tree .forward).addRoot _ _ = _
        rw [empty]
        rfl
    | backward =>
        refine ⟨(planner.plant .forward ends.forward weights.forward
          { search with seeded := true, startedAt := some now }).makerState, finished, ?_⟩
        change (search.tree .backward).addRoot _ _ = _
        rw [empty]
        rfl
  unfold Planner.planted
  dsimp only
  obtain ⟨makerState, finished, isRoot⟩ := both
  split
  · split
    · split
      · exact ⟨makerState, finished, isRoot⟩
      · exact ⟨makerState, finished, isRoot⟩
    · split
      · exact ⟨makerState, finished, isRoot⟩
      · refine ⟨makerState, true, ?_⟩
        rw [Search.tree, Sides.get_map]
        change SearchTree.finish (Search.tree _ side) true = _
        rw [isRoot]
        rfl
  · exact ⟨makerState, finished, isRoot⟩

/-- A lawful maker gives each root what the query asks for. -/
theorem Search.Blank.planted_tree (blank : search.Blank) (lawful : planner.maker.Lawful)
    (ends : Sides NodeId) (weights : Sides W) (now : Nat) (side : Direction) :
    ∃ payload finished, (planner.planted ends.forward weights.forward ends.backward
        weights.backward now search).tree side =
      (({} : SearchTree W X).addRoot (planner.rootKey (ends.get side))
        ⟨noEdge, ends.get side, weights.get side, none, payload⟩).finish finished := by
  obtain ⟨makerState, finished, isRoot⟩ := blank.planted_root planner ends weights now side
  obtain ⟨payload, made⟩ := lawful.root makerState (ends.get side) (weights.get side) side
  exact ⟨payload, finished, made ▸ isRoot⟩

/-- A planted query has met if its roots are one state, or are the answer already. -/
theorem Search.Blank.planted_best (blank : search.Blank) (planner : Planner W X S)
    (source : NodeId) (sourceWeight : W) (target : NodeId) (targetWeight : W) (now : Nat) :
    (planner.planted source sourceWeight target targetWeight now search).best =
      if source = target then
        match planner.settings.stateKind with
        | .nodeBased =>
            if planner.settings.tracksMeeting then some ⟨.both 0, sourceWeight + targetWeight⟩
            else none
        | .edgeBased => if search.isPinned then none else some ⟨.both 0, Weight.zero⟩
      else none := by
  have sizes : (⟨search.trees.forward.size, search.trees.backward.size⟩ : Sides LabelId) =
      .both 0 := Sides.ext_get fun side => by
    obtain ⟨finished, empty⟩ := blank.trees side
    have isEmpty : (search.tree side).size = 0 := by
      rw [empty]
      rfl
    cases side <;> exact isEmpty
  have pinned : Search.isPinned (planner.plant .backward target targetWeight
      (planner.plant .forward source sourceWeight
        { search with seeded := true, startedAt := some now })) = search.isPinned := rfl
  unfold Planner.planted
  rw [sizes]
  split
  · cases planner.settings.stateKind with
    | nodeBased =>
        dsimp only
        split
        · rfl
        · exact blank.best
    | edgeBased =>
        dsimp only
        rw [pinned]
        split
        · exact blank.best
        · rfl
  · exact blank.best

end Roots

section Planted

variable {search : Search Exact X S} {planner : Planner Exact X S}

/-- The trees of a query that is planted in a blank search hold their roots only. -/
theorem Search.Blank.planted (blank : search.Blank) (lawful : planner.maker.Lawful)
    (ends : Sides NodeId) (weights : Sides Rat) (now : Nat) (side : Direction) :
    Planted planner ⟨ends, weights, search.pins, search.filter⟩ side
      ((planner.planted ends.forward (.finite weights.forward) ends.backward
        (.finite weights.backward) now search).tree side) := by
  obtain ⟨payload, finished, isPlanted⟩ := blank.planted_tree lawful ends
    ⟨.finite weights.forward, .finite weights.backward⟩ now side
  have isWeight : (⟨.finite weights.forward, .finite weights.backward⟩ : Sides Exact).get side =
      .finite (weights.get side) := by cases side <;> rfl
  rw [isPlanted]
  exact (planted_addRoot ⟨rfl, rfl, isWeight, rfl⟩).finish finished

/-- A planted query has met where it may. -/
theorem Search.Blank.planted_met (blank : search.Blank) (lawful : planner.maker.Lawful)
    (ends : Sides NodeId) (weights : Sides Rat) (now : Nat) :
    Met planner ⟨ends, weights, search.pins, search.filter⟩
      (planner.planted ends.forward (.finite weights.forward) ends.backward
        (.finite weights.backward) now search) := by
  have planted := blank.planted lawful ends weights now
  have best := blank.planted_best planner ends.forward (.finite weights.forward)
    ends.backward (.finite weights.backward) now
  by_cases sameEnds : ends.forward = ends.backward
  · rw [if_pos sameEnds] at best
    cases kind : planner.settings.stateKind with
    | nodeBased =>
        rw [kind] at best
        dsimp only at best
        split at best
        · rename_i tracks
          exact .planted_home planted tracks kind sameEnds best
        · rename_i untracked
          exact .planted planted best fun tracks => absurd tracks untracked
    | edgeBased =>
        have edgeBased := planner.isEdgeBased_eq_true.mpr kind
        have notNodeBased : planner.isEdgeBased ≠ false := by simp [edgeBased]
        rw [kind] at best
        dsimp only at best
        split at best
        · exact .planted planted best fun _ nodeBased => absurd nodeBased notNodeBased
        · rename_i unpinned
          have free := Search.isPinned_eq_false.mp (Bool.eq_false_iff.mpr unpinned)
          refine ⟨fun _ _ _ _ joins => absurd (joins.planted planted).1 notNodeBased,
            fun isBest => ?_⟩
          obtain rfl := Option.some.inj (best.symm.trans isBest)
          exact .inl ⟨edgeBased, sameEnds, free, rfl, rfl⟩
  · rw [if_neg sameEnds] at best
    exact .planted planted best fun _ _ => sameEnds

end Planted

end RouteSearch
