/-
This file proves that a query is what its steps make of the planted roots, and gives the
induction over its steps.
-/

import RouteSearch.Proofs.Rounds
import RouteSearch.Proofs.Start

namespace RouteSearch

variable {W X S : Type} [Weight W] {planner : Planner W X S} {direction : Direction}
  {search : Search W X S}

/-- What a direction takes is at the head of its queue. -/
theorem Search.taking?_eq_some {id : LabelId} {again : Bool} {tree : SearchTree W X}
    {label : Label W X} (popped : (search.tree direction).pop? = some (id, again, tree))
    (atId : tree.label? id = some label) :
    search.taking? direction = some ⟨id, label, again, search.isBeaten label.weight⟩ := by
  rw [taking?, popped]
  simp [atId]

theorem Search.taking?_eq_none (popped : (search.tree direction).pop? = none) :
    search.taking? direction = none := by
  rw [taking?, popped]
  rfl

section InOrder

variable {planner : Planner Exact X S} {search : Search Exact X S} {bound : Rat}

/-- The ways in which a step of a direction may turn out whose tree is in order, with what it
takes. No label comes up again. -/
inductive Planner.Proceeds (planner : Planner Exact X S) (direction : Direction)
    (step : Option (ArcFilter Exact)) (search : Search Exact X S) (bound : Rat) :
    Progress × Search Exact X S → Option (Taking Exact X) → Prop
  /-- No label is open. -/
  | stuck (empty : ∀ id label, ¬ (search.tree direction).Holds id label false) :
      Proceeds planner direction step search bound
        (.exhausted, search.withTree direction ((search.tree direction).finish true)) none
  /-- The best meeting beats the label. -/
  | stopped {id label tree value} (takes : (search.tree direction).Takes id label tree)
      (isValue : label.weight = .finite value) (dearer : bound ≤ value)
      (ordered : tree.Ordered value) (beaten : search.isBeaten label.weight = true) :
      Proceeds planner direction step search bound
        (.exhausted, search.withTree direction (tree.finish true))
        (some ⟨id, label, false, true⟩)
  /-- The label is looked from. -/
  | expanded {id label tree value} (takes : (search.tree direction).Takes id label tree)
      (isValue : label.weight = .finite value) (dearer : bound ≤ value)
      (ordered : tree.Ordered value) (unbeaten : search.isBeaten label.weight = false) :
      Proceeds planner direction step search bound
        (.progressed, planner.expand direction step id label (search.withTree direction tree))
        (some ⟨id, label, false, false⟩)

theorem SearchTree.Ordered.proceeds (ordered : (search.tree direction).Ordered bound)
    (planner : Planner Exact X S) (step : Option (ArcFilter Exact)) :
    planner.Proceeds direction step search bound (planner.advanceUnder direction step search)
      (search.taking? direction) := by
  have popped := ordered.pop?
  have advances := planner.advances direction step search
  generalize planner.advanceUnder direction step search = outcome at advances ⊢
  cases advances with
  | stuck empty =>
      rw [empty] at popped
      rw [search.taking?_eq_none empty]
      exact .stuck popped
  | passed pops idle =>
      rw [pops] at popped
      obtain ⟨rfl, label, value, takes, _⟩ := popped
      rw [takes.settled.label?] at idle
      cases idle <;> contradiction
  | stopped pops atId beaten =>
      rw [pops] at popped
      obtain ⟨_, label, value, takes, isValue, dearer, ordered⟩ := popped
      obtain rfl := Option.some.inj (takes.settled.label?.symm.trans atId)
      rw [search.taking?_eq_some pops atId, beaten]
      exact .stopped takes isValue dearer ordered beaten
  | expanded pops atId unbeaten =>
      rw [pops] at popped
      obtain ⟨_, label, value, takes, isValue, dearer, ordered⟩ := popped
      obtain rfl := Option.some.inj (takes.settled.label?.symm.trans atId)
      rw [search.taking?_eq_some pops atId, unbeaten]
      exact .expanded takes isValue dearer ordered unbeaten

end InOrder

namespace Planner

/-- Steps one after another take one after another. -/
theorem follow_append (planner : Planner W X S) (first second : List (Step W))
    (search : Search W X S) :
    planner.follow (first ++ second) search =
      planner.follow second (planner.follow first search) := by
  induction first generalizing search with
  | nil => rfl
  | cons step steps ih => exact ih _

theorem takings_append (planner : Planner W X S) (direction : Direction)
    (first second : List (Step W)) (search : Search W X S) :
    planner.takings direction (first ++ second) search =
      planner.takings direction first search ++
        planner.takings direction second (planner.follow first search) := by
  induction first generalizing search with
  | nil => rfl
  | cons step steps ih =>
      rw [List.cons_append, takings, ih, takings, follow, List.append_assoc]

/-- Advances are steps without a filter. -/
theorem performAll_advances (planner : Planner W X S) (clock : Clock) (schedule : List Direction)
    (search : Search W X S) :
    (planner.performAll clock (schedule.map .advance) search).2 =
      planner.follow (schedule.map fun direction => ⟨direction, none⟩) search := by
  induction schedule generalizing search with
  | nil => rfl
  | cons direction schedule ih => exact ih _

/-- A query begins with the first steps from its planted roots. -/
theorem seed_eq_follow (planner : Planner W X S) (source : NodeId) (sourceWeight : W)
    (target : NodeId) (targetWeight : W) (now : Nat) (search : Search W X S) :
    planner.seed source sourceWeight target targetWeight now search =
      planner.follow (planner.rootSteps source target search)
        (planner.planted source sourceWeight target targetWeight now search) := by
  have expanded (planted : Search W X S) (pins : planted.pins = search.pins) :
      planner.expandRoot .backward (planner.expandRoot .forward planted) =
        planner.follow
          [⟨.forward, (search.pins.get .forward).map (ArcFilter.pinned · .forward)⟩,
            ⟨.backward, (search.pins.get .backward).map (ArcFilter.pinned · .backward)⟩]
          planted := by
    have kept : (planner.expandRoot .forward planted).pins = search.pins :=
      (planner.advanceUnder_touches .forward _ planted).pins.trans pins
    rw [expandRoot, kept, expandRoot, pins]
    rfl
  have pins : (planner.plant .backward target targetWeight
      (planner.plant .forward source sourceWeight
        { search with seeded := true, startedAt := some now })).pins = search.pins := rfl
  unfold seed planted rootSteps isEdgeBased
  dsimp only
  generalize planner.plant .backward target targetWeight _ = both at pins ⊢
  have pinned : both.isPinned = search.isPinned := by rw [Search.isPinned, pins, Search.isPinned]
  by_cases sameEnds : source = target
  · cases planner.settings.stateKind with
    | nodeBased =>
        cases planner.settings.tracksMeeting with
        | true =>
            simpa [sameEnds, StateKind.isEdgeBased] using expanded { both with best := some _ } pins
        | false => simpa [sameEnds, StateKind.isEdgeBased] using expanded both pins
    | edgeBased =>
        cases isPinned : search.isPinned with
        | true => simpa [sameEnds, StateKind.isEdgeBased, pinned, isPinned] using expanded _ pins
        | false => simp [sameEnds, StateKind.isEdgeBased, pinned, isPinned, follow]
  · simpa [sameEnds] using expanded _ pins

theorem follow_seeded (planner : Planner W X S) (steps : List (Step W)) (search : Search W X S) :
    (planner.follow steps search).seeded = search.seeded := by
  induction steps generalizing search with
  | nil => rfl
  | cons step steps ih => exact (ih _).trans (planner.advanceUnder_touches _ _ search).seeded

/-- Planting the roots of a query leaves its filter and its pins alone. -/
theorem planted_frame (planner : Planner W X S) (source : NodeId) (sourceWeight : W)
    (target : NodeId) (targetWeight : W) (now : Nat) (search : Search W X S) :
    let planted := planner.planted source sourceWeight target targetWeight now search
    planted.seeded = true ∧ planted.filter = search.filter ∧ planted.pins = search.pins := by
  unfold planted
  dsimp only
  split
  · split
    · split <;> exact ⟨rfl, rfl, rfl⟩
    · split <;> exact ⟨rfl, rfl, rfl⟩
  · exact ⟨rfl, rfl, rfl⟩

/-- A search is seeded once. -/
theorem seed_seeded (planner : Planner W X S) (source : NodeId) (sourceWeight : W)
    (target : NodeId) (targetWeight : W) (now : Nat) (search : Search W X S) :
    (planner.seed source sourceWeight target targetWeight now search).seeded = true := by
  rw [seed_eq_follow, follow_seeded]
  exact (planner.planted_frame source sourceWeight target targetWeight now search).1

/-- An accepted query that is advanced is what its steps make of the planted roots. -/
theorem performAll_queried {source target : NodeId} {sourceWeight targetWeight : Exact}
    {planner : Planner Exact X S} {search begun : Search Exact X S} {now : Nat}
    (accepted : planner.start source sourceWeight target targetWeight now search = .ok begun)
    (clock : Clock) (schedule : List Direction) :
    (planner.performAll clock (schedule.map .advance) begun).2 =
      planner.follow (planner.queried source target search schedule)
        (planner.planted source sourceWeight target targetWeight now search) := by
  rw [performAll_advances, queried, follow_append, ← seed_eq_follow,
    (planner.start_eq_ok accepted).1]

/-- What the steps of one direction keep, as it takes one label after another, and the steps of
the other direction do not disturb, holds after any steps. -/
theorem follow_keeps (direction : Direction) {P : List (Taking W X) → Search W X S → Prop}
    (steps : List (Step W))
    (own : ∀ past filter search, ⟨direction, filter⟩ ∈ steps → P past search →
      P (past ++ (search.taking? direction).toList)
        (planner.advanceUnder direction filter search).2)
    (other : ∀ past filter search, P past search →
      P past (planner.advanceUnder direction.opposite filter search).2)
    (past : List (Taking W X)) (search : Search W X S) (holds : P past search) :
    P (past ++ planner.takings direction steps search) (planner.follow steps search) := by
  induction steps generalizing past search with
  | nil => simpa [takings, follow] using holds
  | cons step steps ih =>
      rw [takings, follow, ← List.append_assoc]
      apply ih fun past filter search member =>
        own past filter search (List.mem_cons_of_mem _ member)
      rcases Direction.eq_or_opposite direction step.direction with same | opposite
      · rw [if_pos same, same]
        apply own past step.filter search _ holds
        rw [← same]
        exact List.mem_cons_self
      · have differs : step.direction ≠ direction := by
          rw [opposite]
          cases direction <;> nofun
        rw [if_neg differs, opposite, Option.toList_none, List.append_nil]
        exact other past step.filter search holds

end Planner

end RouteSearch
