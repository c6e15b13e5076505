/-
This file states what holds in the middle of a search, and proves that every step of either
direction keeps it.
-/

import RouteSearch.Proofs.Meeting

namespace RouteSearch

variable {X S : Type}

/-- What the planner is made of behaves as a search expects. -/
structure Planner.Lawful (planner : Planner Exact X S) : Prop where
  network : planner.network.Lawful
  pricing : planner.pricing.Fair planner.network
  maker : planner.maker.Lawful

/-- The tree knows a way over the arc that is no dearer than the one through the label. -/
def Covers (planner : Planner Exact X S) (direction : Direction) (tree : SearchTree Exact X)
    (label : Label Exact X) (arc : Arc Exact) : Prop :=
  ∀ value cost, label.weight = .finite value →
    planner.pricing.cost arc direction label.edge = .finite cost →
      ∃ id known found, tree.lookup? (planner.settings.stateKind.key arc direction) = some id ∧
        tree.label? id = some known ∧ known.weight = .finite found ∧ found ≤ cost + value

/-- The label can no longer lead to a better meeting. -/
def Search.BeatsLabel (search : Search Exact X S) (label : Label Exact X) : Prop :=
  ∃ value, label.weight = .finite value ∧ search.Beats value

/-- What holds of a query's search between any two of its steps. A settled label is beaten, or
was looked from over all its arcs but those still `pending`; and in a finished direction all
open labels are beaten. -/
structure Underway (planner : Planner Exact X S) (query : Query)
    (pending : Direction → LabelId → Arc Exact → Prop) (search : Search Exact X S) : Prop where
  filter : search.filter = query.filter
  grown : ∀ direction, Grown planner query direction (search.tree direction)
  met : Met planner query search
  looked : ∀ {direction id label arc}, (search.tree direction).Holds id label true →
    planner.MayTake query direction label arc → pending direction id arc ∨
      search.BeatsLabel label ∨ Covers planner direction (search.tree direction) label arc
  exhausted : ∀ {direction}, (search.tree direction).finished = true → ∀ {id label},
    (search.tree direction).Holds id label false → search.BeatsLabel label

/-- No arc waits to be looked over. -/
def noArc : Direction → LabelId → Arc Exact → Prop := fun _ _ _ => False

/-- One label waits to be looked from over some arcs. -/
def arcsFrom (direction : Direction) (id : LabelId) (arcs : List (Arc Exact)) :
    Direction → LabelId → Arc Exact → Prop :=
  fun side other arc => side = direction ∧ other = id ∧ arc ∈ arcs

namespace Search

/-- What no step of a search takes back, in either direction. -/
structure Extends (search after : Search Exact X S) : Prop where
  grows : ∀ direction, (search.tree direction).Grows (after.tree direction)
  improves : search.Improves after

/-- What the expansion of a label leaves as it was. -/
structure Frames (direction : Direction) (search after : Search Exact X S) : Prop where
  there : after.tree direction.opposite = search.tree direction.opposite
  settled : ∀ {side id label}, (after.tree side).Holds id label true →
    (search.tree side).Holds id label true
  last : (after.tree direction).last = (search.tree direction).last
  visited : (after.tree direction).visited = (search.tree direction).visited
  finished : (after.tree direction).finished = (search.tree direction).finished
  filter : after.filter = search.filter
  pins : after.pins = search.pins

variable {search middle after : Search Exact X S} {direction : Direction}

theorem Extends.refl (search : Search Exact X S) : search.Extends search :=
  ⟨fun _ => .refl _, .refl _⟩

theorem Extends.trans (first : search.Extends middle) (second : middle.Extends after) :
    search.Extends after :=
  ⟨fun direction => (first.grows direction).trans (second.grows direction),
    first.improves.trans second.improves⟩

theorem Extends.beatsLabel (extends_ : search.Extends after) {label : Label Exact X}
    (beats : search.BeatsLabel label) : after.BeatsLabel label :=
  beats.imp fun _ => And.imp_right extends_.improves.beats

theorem Frames.refl (direction : Direction) (search : Search Exact X S) :
    Frames direction search search :=
  ⟨rfl, id, rfl, rfl, rfl, rfl, rfl⟩

theorem Frames.trans (first : Frames direction search middle)
    (second : Frames direction middle after) : Frames direction search after :=
  ⟨second.there.trans first.there, fun holds => first.settled (second.settled holds),
    second.last.trans first.last, second.visited.trans first.visited,
    second.finished.trans first.finished, second.filter.trans first.filter,
    second.pins.trans first.pins⟩

end Search

theorem Covers.mono {planner : Planner Exact X S} {direction : Direction}
    {tree after : SearchTree Exact X} {label : Label Exact X} {arc : Arc Exact}
    (grows : tree.Grows after) (covers : Covers planner direction tree label arc) :
    Covers planner direction after label arc := by
  intro value cost isValue isCost
  obtain ⟨id, known, found, atKey, atId, isFound, atMost⟩ := covers value cost isValue isCost
  obtain ⟨state, holds⟩ := SearchTree.holds_of_label? atId
  obtain ⟨cheaper, _, less, held, isLess, atLeast⟩ := grows.cheaper holds isFound
  exact ⟨id, cheaper, less, grows.lookup? atKey, held.label?, isLess, atLeast.trans atMost⟩

section Relax

variable {planner : Planner Exact X S} {query : Query} {search : Search Exact X S}
  {direction : Direction} {step : Option (ArcFilter Exact)} {id : LabelId}
  {label : Label Exact X} {arc : Arc Exact} {rest : List (Arc Exact)}

/-- The filter of a step is the pin of its direction if the label is the root. -/
def StepFits (query : Query) (direction : Direction) (step : Option (ArcFilter Exact))
    (label : Label Exact X) : Prop :=
  ∀ arc, step.all (fun accepts => accepts arc) = true ↔ (label.isRoot = true →
    ∀ pin ∈ query.pins.get direction, ArcFilter.pinned pin direction arc = true)

/-- The checks of a search let exactly the arcs through that a direction may take. -/
theorem Planner.admits_iff (filter : search.filter = query.filter)
    (fits : StepFits query direction step label)
    (member : arc ∈ planner.network.arcs label.node) :
    planner.admits search step label.edge arc = true ∧ arc.isOpen direction = true ↔
      planner.MayTake query direction label arc := by
  have turns : (planner.isEdgeBased || arc.edge != label.edge) = true ↔
      planner.isEdgeBased = true ∨ arc.edge ≠ label.edge := by
    rw [Bool.or_eq_true, bne_iff_ne]
  unfold Planner.admits
  rw [Bool.and_eq_true, Bool.and_eq_true, turns, filter, fits arc]
  constructor
  · rintro ⟨⟨⟨turnOk, accepted⟩, pinned⟩, isOpen⟩
    exact ⟨member, ⟨isOpen, accepted, pinned⟩, turnOk⟩
  · rintro ⟨_, ⟨isOpen, accepted, pinned⟩, turnOk⟩
    exact ⟨⟨⟨turnOk, accepted⟩, pinned⟩, isOpen⟩

theorem Underway.weaken {pending fewer : Direction → LabelId → Arc Exact → Prop}
    (underway : Underway planner query pending search)
    (done : ∀ {direction id arc}, pending direction id arc → fewer direction id arc) :
    Underway planner query fewer search where
  filter := underway.filter
  grown := underway.grown
  met := underway.met
  looked holds mayTake := (underway.looked holds mayTake).imp_left done
  exhausted := underway.exhausted

/-- An arc that is covered already does not have to be looked over. -/
theorem Underway.skip
    (underway : Underway planner query (arcsFrom direction id (arc :: rest)) search)
    (closed : (search.tree direction).Holds id label true)
    (covers : planner.MayTake query direction label arc →
      Covers planner direction (search.tree direction) label arc) :
    Underway planner query (arcsFrom direction id rest) search where
  filter := underway.filter
  grown := underway.grown
  met := underway.met
  exhausted := underway.exhausted
  looked {side other found next} holds mayTake := by
    rcases underway.looked holds mayTake with ⟨rfl, rfl, member⟩ | settled
    · rcases List.mem_cons.mp member with rfl | later
      · obtain ⟨rfl, _⟩ := holds.unique closed
        exact .inr (.inr (covers mayTake))
      · exact .inl ⟨rfl, rfl, later⟩
    · exact .inr settled

/-- A way that is not written down is covered. -/
theorem Grown.covers_of_record (grown : Grown planner query direction (search.tree direction))
    {parent : LabelId} {value cost : Rat}
    (recorded : planner.record direction parent arc (.finite (cost + value)) search = none)
    (isValue : label.weight = .finite value)
    (isCost : planner.pricing.cost arc direction label.edge = .finite cost) :
    Covers planner direction (search.tree direction) label arc := by
  intro other price isOther isPrice
  obtain ⟨known, found, notLess⟩ := planner.record_eq_none recorded
  obtain ⟨trail, held, branch, _⟩ := grown.keyed found
  obtain ⟨settled, holds⟩ := branch.holds
  obtain ⟨old, isOld⟩ := grown.finite holds
  have dearer := notLess held holds.label?
  rw [isOld, Exact.less_finite, decide_eq_false_iff_not, not_lt] at dearer
  rw [isCost, Exact.finite.injEq] at isPrice
  rw [isValue, Exact.finite.injEq] at isOther
  exact ⟨known, held, old, found, holds.label?, isOld, isPrice ▸ isOther ▸ dearer⟩

/-- Looking over one arc changes nothing, since the arc may not be taken or is covered, or it
writes down a label for the state behind the arc. -/
theorem Planner.relax_cases (id : LabelId) (network : planner.network.Lawful)
    (nonNegative : planner.pricing.NonNegative planner.network) (maker : planner.maker.Lawful)
    (grown : Grown planner query direction (search.tree direction))
    (filter : search.filter = query.filter) (fits : StepFits query direction step label)
    {value : Rat} (isValue : label.weight = .finite value)
    (member : arc ∈ planner.network.arcs label.node) :
    planner.relax direction step id label search arc = search ∧
      (planner.MayTake query direction label arc →
        Covers planner direction (search.tree direction) label arc) ∨
    ∃ written made tree makerState updates cost,
      (search.tree direction).Writes (planner.settings.stateKind.key arc direction) made written
        tree ∧
      planner.Reaches query direction id label arc made ∧ 0 ≤ cost ∧
      planner.pricing.cost arc direction label.edge = .finite cost ∧
      made.weight = .finite (cost + value) ∧
      planner.relax direction step id label search arc =
        if planner.settings.tracksMeeting = true then
          planner.meet direction arc written { search.withTree direction tree with
            makerState := makerState
            updates := updates }
        else { search.withTree direction tree with
          makerState := makerState
          updates := updates } := by
  by_cases isOpen : arc.isOpen direction = true
  swap
  · left
    have endless : planner.reachWeight direction label arc = .infinity := if_neg isOpen
    unfold Planner.relax
    rw [endless]
    exact ⟨by simp, fun mayTake => absurd mayTake.allows.1 isOpen⟩
  by_cases admitted : planner.admits search step label.edge arc = true
  swap
  · left
    unfold Planner.relax
    rw [if_neg admitted]
    exact ⟨rfl, fun mayTake => absurd ((planner.admits_iff filter fits member).mpr mayTake).1
      admitted⟩
  have mayTake := (planner.admits_iff filter fits member).mp ⟨admitted, isOpen⟩
  have price := nonNegative member isOpen label.edge
  unfold Planner.relax
  rw [if_pos admitted]
  dsimp only
  cases endless : Weight.isInfinite (planner.reachWeight direction label arc) with
  | true =>
      refine .inl ⟨rfl, fun _ other cost _ isCost => ?_⟩
      rw [Planner.reachWeight, ArcFilter.access, if_pos isOpen, isCost, isValue] at endless
      cases endless
  | false =>
      obtain ⟨_, _, cost, isCost, weight⟩ :=
        planner.reachWeight_bounded (fun _ => price.isNumber) isValue endless
      rw [weight]
      cases recorded : planner.record direction id arc (.finite (cost + value)) search with
      | none => exact .inl ⟨rfl, fun _ => grown.covers_of_record recorded isValue isCost⟩
      | some pair =>
          obtain ⟨written, mid⟩ := pair
          obtain ⟨made, tree, makerState, updates, rfl, writes, edge, madeWeight, isParent,
            node⟩ := planner.record_eq_some maker recorded
          refine .inr ⟨written, made, tree, makerState, updates, cost, writes, ?_,
            price.nonneg isCost, isCost, madeWeight, rfl⟩
          refine ⟨mayTake, edge, ?_, isParent, ?_⟩
          · rcases node with isFar | ⟨known, found, atKnown, sameNode⟩
            · exact isFar
            · obtain ⟨settled, holds⟩ := SearchTree.holds_of_label? atKnown
              exact sameNode.trans (grown.node_eq network member found holds)
          · rw [madeWeight, isCost, isValue, Exact.finite_add]

/-- Writing down a label for the state behind an arc keeps what holds underway, and leaves one arc
less to look over. -/
theorem Underway.write {after : Search Exact X S} {written : LabelId} {made : Label Exact X}
    {tree : SearchTree Exact X} {bound cost : Rat}
    (underway : Underway planner query (arcsFrom direction id (arc :: rest)) search)
    (closed : (search.tree direction).Holds id label true)
    (ordered : (search.tree direction).Ordered bound) (isBound : label.weight = .finite bound)
    (notFinished : (search.tree direction).finished = false)
    (writes : (search.tree direction).Writes (planner.settings.stateKind.key arc direction) made
      written tree)
    (reaches : planner.Reaches query direction id label arc made) (positive : 0 ≤ cost)
    (isCost : planner.pricing.cost arc direction label.edge = .finite cost)
    (madeWeight : made.weight = .finite (cost + bound)) (here : after.tree direction = tree)
    (there : after.tree direction.opposite = search.tree direction.opposite)
    (sameFilter : after.filter = search.filter) (samePins : after.pins = search.pins)
    (met : Met planner query after) (improves : search.Improves after) :
    Underway planner query (arcsFrom direction id rest) after ∧ search.Extends after ∧
      Search.Frames direction search after := by
  have dearer : bound ≤ cost + bound := le_add_of_nonneg_left positive
  have sides {property : Direction → Prop} (atHere : property direction)
      (atThere : property direction.opposite) (side : Direction) : property side := by
    rcases Direction.eq_or_opposite direction side with rfl | rfl
    · exact atHere
    · exact atThere
  have extends_ : search.Extends after := by
    refine ⟨sides ?_ ?_, improves⟩
    · exact here ▸ ordered.grows_write writes madeWeight dearer
    · exact there ▸ .refl _
  have settledBefore {side : Direction} {other : LabelId} {found : Label Exact X}
      (holds : (after.tree side).Holds other found true) :
      (search.tree side).Holds other found true := by
    rcases Direction.eq_or_opposite direction side with rfl | rfl
    · rcases (ordered.holds_write writes madeWeight dearer _ _ _).mp (here ▸ holds) with
        ⟨_, _, isOpen⟩ | ⟨_, before⟩
      · cases isOpen
      · exact before
    · exact there ▸ holds
  refine ⟨⟨sameFilter.trans underway.filter, sides ?_ ?_, met, ?_, ?_⟩, extends_, there,
    settledBefore, ?_, ?_, ?_, sameFilter, samePins⟩
  · exact here ▸ (underway.grown _).write ordered writes closed reaches madeWeight dearer
  · exact there ▸ underway.grown _
  · intro side other found next holds mayTake
    rcases underway.looked (settledBefore holds) mayTake with ⟨rfl, rfl, waits⟩ | beats | covers
    · rcases List.mem_cons.mp waits with rfl | later
      · obtain ⟨rfl, _⟩ := (settledBefore holds).unique closed
        refine .inr (.inr fun value price isValue isPrice => ?_)
        rw [isBound, Exact.finite.injEq] at isValue
        rw [isCost, Exact.finite.injEq] at isPrice
        refine ⟨written, made, cost + bound, ?_, ?_, madeWeight, (isPrice ▸ isValue ▸ le_rfl)⟩
        · exact here ▸ writes.indexed
        · exact here ▸ writes.label?
      · exact .inl ⟨rfl, rfl, later⟩
    · exact .inr (.inl (extends_.beatsLabel beats))
    · exact .inr (.inr (covers.mono (extends_.grows side)))
  · intro side isFinished other found holds
    rcases Direction.eq_or_opposite direction side with rfl | rfl
    · rw [here, writes.finished, notFinished] at isFinished
      cases isFinished
    · rw [there] at isFinished holds
      exact extends_.beatsLabel (underway.exhausted isFinished holds)
  · exact here ▸ writes.last
  · exact here ▸ writes.visited
  · exact here ▸ writes.finished

/-- Looking over one arc keeps what holds underway, and leaves one arc less to look over. -/
theorem Underway.relax (lawful : planner.Lawful)
    (underway : Underway planner query (arcsFrom direction id (arc :: rest)) search)
    (closed : (search.tree direction).Holds id label true)
    (isLast : (search.tree direction).last = some id)
    (notFinished : (search.tree direction).finished = false)
    (fits : StepFits query direction step label)
    (member : arc ∈ planner.network.arcs label.node) :
    Underway planner query (arcsFrom direction id rest)
        (planner.relax direction step id label search arc) ∧
      search.Extends (planner.relax direction step id label search arc) ∧
      Search.Frames direction search (planner.relax direction step id label search arc) := by
  obtain ⟨bound, ordered⟩ := (underway.grown direction).ordered
  have isBound : label.weight = .finite bound := by
    rw [← ordered.last, SearchTree.lastWeight_of_last isLast closed.label?]
  rcases planner.relax_cases id lawful.network lawful.pricing.price lawful.maker
    (underway.grown direction) underway.filter fits isBound member with
    ⟨same, covers⟩ | ⟨written, made, tree, makerState, updates, cost, writes, reaches, positive,
      isCost, madeWeight, relaxed⟩
  · rw [same]
    exact ⟨underway.skip closed covers, .refl _, .refl _ _⟩
  · have unsettled (known : Label Exact X) :
        ¬ (search.tree direction).Holds written known true := by
      intro holds
      cases (ordered.overwritten writes madeWeight (le_add_of_nonneg_left positive) holds).1
    obtain ⟨best, meetings, isMet, met, improves⟩ := underway.met.write
      { search.withTree direction tree with
        makerState := makerState
        updates := updates }
      lawful.network lawful.pricing underway.grown writes unsettled reaches madeWeight rfl rfl
    rw [relaxed, isMet]
    exact underway.write closed ordered isBound notFinished writes reaches positive isCost
      madeWeight (Sides.get_set _ _ _) (Sides.get_opposite_set _ _ _) rfl rfl met improves

end Relax

end RouteSearch
