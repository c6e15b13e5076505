/-
This file says what a search writes down when it looks over one arc, and what it keeps as the
best meeting of its trees.
-/

import RouteSearch.Proofs.Branch
import RouteSearch.Proofs.Steps

namespace RouteSearch

section Makers

variable {W X S : Type}

/-- The maker chooses the payloads only. -/
structure LabelMaker.Lawful (maker : LabelMaker W X S) : Prop where
  root : ∀ state node weight direction, ∃ payload,
    (maker.root state node weight direction).1 = ⟨noEdge, node, weight, none, payload⟩
  create : ∀ state arc weight parent direction, ∃ payload,
    (maker.create state arc weight parent direction).1 = .reach arc weight parent payload
  update : ∀ state label arc weight parent direction, ∃ payload,
    (maker.update state label arc weight parent direction).1 =
      { label.improve arc weight parent with payload := payload }

theorem LabelMaker.plain_lawful : (plain : LabelMaker W Unit Unit).Lawful :=
  ⟨fun _ _ _ _ => ⟨_, rfl⟩, fun _ _ _ _ _ => ⟨_, rfl⟩, fun _ _ _ _ _ _ => ⟨_, rfl⟩⟩

theorem LabelMaker.traced_lawful : (traced : LabelMaker W Trace Unit).Lawful :=
  ⟨fun _ _ _ _ => ⟨_, rfl⟩, fun _ _ _ _ _ => ⟨_, rfl⟩, fun _ _ _ _ _ _ => ⟨_, rfl⟩⟩

end Makers

namespace Planner

variable {W X S : Type} [Weight W] {planner : Planner W X S} {direction : Direction}
  {parent id : LabelId} {arc : Arc W} {weight : W} {search after : Search W X S}

/-- A way that is not written down is not cheaper than the one that is known. -/
theorem record_eq_none (unwritten : planner.record direction parent arc weight search = none) :
    ∃ known, (search.tree direction).lookup?
        (planner.settings.stateKind.key arc direction) = some known ∧
      ∀ label, (search.tree direction).label? known = some label →
        Weight.less weight label.weight = false := by
  unfold record at unwritten
  dsimp only at unwritten
  split at unwritten
  · cases unwritten
  · rename_i known found
    refine ⟨known, found, fun label atKnown => ?_⟩
    rw [atKnown] at unwritten
    dsimp only at unwritten
    split at unwritten
    · cases unwritten
    · rename_i notLess
      exact Bool.eq_false_iff.mpr notLess

/-- A way that is written down changes one tree, under the key of its state. -/
theorem record_eq_some (lawful : planner.maker.Lawful)
    (written : planner.record direction parent arc weight search = some (id, after)) :
    ∃ label tree makerState updates,
      after = { search.withTree direction tree with
        makerState := makerState
        updates := updates } ∧
      (search.tree direction).Writes (planner.settings.stateKind.key arc direction) label id
        tree ∧
      label.edge = arc.edge ∧ label.weight = weight ∧ label.parent = some parent ∧
      (label.node = arc.far ∨ ∃ known, (search.tree direction).lookup?
          (planner.settings.stateKind.key arc direction) = some id ∧
        (search.tree direction).label? id = some known ∧ label.node = known.node) := by
  unfold record at written
  dsimp only at written
  split at written
  · rename_i unknown
    cases written
    obtain ⟨payload, made⟩ := lawful.create search.makerState arc weight parent direction
    exact ⟨_, _, _, _, rfl, SearchTree.writes_add unknown _, congrArg Label.edge made,
      congrArg Label.weight made, congrArg Label.parent made, .inl (congrArg Label.node made)⟩
  · rename_i known found
    split at written
    · cases written
    · rename_i label atKnown
      split at written
      · rename_i less
        cases written
        obtain ⟨payload, made⟩ :=
          lawful.update search.makerState label arc weight parent direction
        have cheaper : Weight.less (planner.maker.update search.makerState label arc weight
            parent direction).1.weight label.weight = true := by
          rw [made]
          exact less
        have sameNode := congrArg Label.node made
        exact ⟨_, _, _, _, rfl, SearchTree.writes_improve found atKnown cheaper,
          congrArg Label.edge made, congrArg Label.weight made, congrArg Label.parent made,
          .inr ⟨label, found, atKnown, sameNode⟩⟩
      · cases written

end Planner

section Relax

variable {X S : Type} {planner : Planner Exact X S} {direction : Direction} {id : LabelId}
  {label : Label Exact X} {arc : Arc Exact} {value : Rat}

/-- Looking over an arc leaves the tree of a direction alone, or writes one label into it. -/
theorem Planner.relax_tree (lawful : planner.maker.Lawful) (direction : Direction)
    (step : Option (ArcFilter Exact)) (id : LabelId) (label : Label Exact X)
    (search : Search Exact X S) (arc : Arc Exact) :
    (planner.relax direction step id label search arc).tree direction = search.tree direction ∨
    ∃ made written, Weight.isInfinite (planner.reachWeight direction label arc) = false ∧
      (search.tree direction).Writes (planner.settings.stateKind.key arc direction) made written
        ((planner.relax direction step id label search arc).tree direction) ∧
      made.edge = arc.edge ∧ made.weight = planner.reachWeight direction label arc ∧
      made.parent = some id := by
  rcases planner.relax_eq direction step id label search arc with
    same | ⟨written, mid, _, bounded, recorded, relaxed⟩
  · exact .inl (congrArg (Search.tree · direction) same)
  · obtain ⟨made, tree, makerState, updates, rfl, writes, edge, weight, isParent, _⟩ :=
      planner.record_eq_some lawful recorded
    have here : (planner.relax direction step id label search arc).tree direction = tree := by
      rw [relaxed, Search.tree, planner.trees_met]
      exact Sides.get_set _ _ _
    exact .inr ⟨made, written, bounded, here ▸ writes, edge, weight, isParent⟩

/-- A state that can be reached is reached over an open arc. -/
theorem Planner.reachWeight_open
    (bounded : Weight.isInfinite (planner.reachWeight direction label arc) = false) :
    arc.isOpen direction = true ∧
      planner.reachWeight direction label arc =
        planner.pricing.cost arc direction label.edge + label.weight := by
  by_cases isOpen : arc.isOpen direction = true
  · exact ⟨isOpen, if_pos isOpen⟩
  · rw [show planner.reachWeight direction label arc = .infinity from if_neg isOpen] at bounded
    cases bounded

/-- The open arc costs a fraction, if the weight of its label is one. -/
theorem Planner.reachWeight_bounded
    (isNumber : arc.isOpen direction = true →
      planner.pricing.cost arc direction label.edge ≠ .undefined)
    (isValue : label.weight = .finite value)
    (bounded : Weight.isInfinite (planner.reachWeight direction label arc) = false) :
    arc.isOpen direction = true ∧
      planner.reachWeight direction label arc =
        planner.pricing.cost arc direction label.edge + label.weight ∧
      ∃ cost, planner.pricing.cost arc direction label.edge = .finite cost ∧
        planner.reachWeight direction label arc = .finite (cost + value) := by
  obtain ⟨isOpen, reach⟩ := planner.reachWeight_open bounded
  rw [reach, isValue] at bounded
  obtain ⟨cost, isCost⟩ := Exact.finite_of_add (isNumber isOpen) bounded
  refine ⟨isOpen, reach, cost, isCost, ?_⟩
  rw [reach, isCost, isValue, Exact.finite_add]

end Relax

section Best

variable {X S : Type} {search : Search Exact X S} {value other : Rat}

namespace Search

theorem bestWeight_of_best {meeting : Meeting Exact} (best : search.best = some meeting) :
    search.bestWeight = meeting.weight := by
  rw [bestWeight, best]

/-- The best meeting weighs at most this much. -/
def Beats (search : Search Exact X S) (value : Rat) : Prop :=
  ∃ best, best ≤ value ∧ search.bestWeight = .finite best

theorem Beats.mono (beats : search.Beats value) (atMost : value ≤ other) : search.Beats other :=
  beats.imp fun _ => And.imp_left fun least => least.trans atMost

/-- The best meeting, if there is one, weighs a fraction. -/
def Proper (search : Search Exact X S) : Prop :=
  ∀ meeting, search.best = some meeting → ∃ value, meeting.weight = .finite value

theorem Proper.bestWeight (proper : search.Proper) :
    search.bestWeight = .infinity ∨ ∃ value, search.bestWeight = .finite value := by
  unfold Search.bestWeight
  cases found : search.best with
  | none => exact .inl rfl
  | some meeting => exact .inr (proper meeting found)

theorem Proper.isBeaten_iff (proper : search.Proper) :
    search.isBeaten (.finite value) = true ↔ search.Beats value := by
  unfold isBeaten Beats
  rcases proper.bestWeight with endless | ⟨best, isBest⟩
  · simp [endless]
  · simp [isBest]

/-- A meeting is taken unless the best one beats it. -/
theorem Proper.propose (proper : search.Proper) (direction : Direction) (here there : LabelId)
    (value : Rat) :
    (search.Beats value ∧ search.propose direction here there (.finite value) = search) ∨
    (¬ search.Beats value ∧ search.propose direction here there (.finite value) =
      { search with
        best := some ⟨.oriented direction here there, .finite value⟩
        meetings := search.meetings + 1 }) := by
  have less : Weight.less (Exact.finite value) search.bestWeight = true ↔
      ¬ search.Beats value := by
    unfold Beats
    rcases proper.bestWeight with endless | ⟨best, isBest⟩
    · simp [endless]
    · simp [isBest]
  unfold Search.propose
  split
  · rename_i isLess
    exact .inr ⟨less.mp isLess, rfl⟩
  · rename_i notLess
    exact .inl ⟨not_not.mp (mt less.mpr notLess), rfl⟩

end Search

end Best

end RouteSearch
