/-
This file compares the best meeting with the labels that both trees have for one state.
-/

import RouteSearch.Proofs.Relaxation

namespace RouteSearch

variable {X S : Type}

/-- What a meeting in a state counts twice: nothing at a node, and the travel over the arc that
makes up the state of an edge-based search. -/
def Planner.Overlap (planner : Planner Exact X S) (key : StateKey) (value : Rat) : Prop :=
  match planner.settings.stateKind with
  | .nodeBased => value = 0
  | .edgeBased => ∃ node, ∃ arc ∈ planner.network.arcs node, arc.isOpen .forward = true ∧
      StateKind.edgeBased.key arc .forward = key ∧
      planner.pricing.cost arc .forward noEdge = .finite value

/-- Both trees know the state under these ids, and the way through it has this weight. -/
structure Joins (planner : Planner Exact X S) (trees : Sides (SearchTree Exact X))
    (key : StateKey) (ids : Sides LabelId) (weight : Rat) : Prop where
  found : ∀ direction, (trees.get direction).lookup? key = some (ids.get direction)
  weight : ∃ (values : Sides Rat) (overlap : Rat),
    (∀ direction, ∃ label, (trees.get direction).label? (ids.get direction) = some label ∧
      label.weight = .finite (values.get direction)) ∧
    planner.Overlap key overlap ∧ weight = values.forward + values.backward - overlap

/-- Where a way through two labels of one state is put together: at both of them, or in an
edge-based search at one of them and at the parent of the other. -/
def MeetsAt (planner : Planner Exact X S) (trees : Sides (SearchTree Exact X))
    (ids ends : Sides LabelId) : Prop :=
  match planner.settings.stateKind with
  | .nodeBased => ends = ids
  | .edgeBased => ∃ direction label,
      (trees.get direction).label? (ids.get direction) = some label ∧
      label.parent = some (ends.get direction) ∧
      ends.get direction.opposite = ids.get direction.opposite

/-- An edge-based search without pins has nothing to do if it ends where it starts. -/
structure Immediate (planner : Planner Exact X S) (query : Query) (meeting : Meeting Exact) :
    Prop where
  edgeBased : planner.isEdgeBased = true
  sameEnds : query.ends.forward = query.ends.backward
  unpinned : ∀ direction, query.pins.get direction = none
  ends : meeting.ends = .both 0
  weight : meeting.weight = .finite 0

/-- The best meeting is a way through one state, and none through a state of both trees is
cheaper. -/
structure Met (planner : Planner Exact X S) (query : Query) (search : Search Exact X S) :
    Prop where
  least : planner.settings.tracksMeeting = true → ∀ {key ids weight},
    Joins planner search.trees key ids weight → search.Beats weight
  best : ∀ {meeting}, search.best = some meeting → Immediate planner query meeting ∨
    planner.settings.tracksMeeting = true ∧ ∃ key ids weight,
      Joins planner search.trees key ids weight ∧ meeting.weight = .finite weight ∧
      MeetsAt planner search.trees ids meeting.ends

theorem Met.proper {planner : Planner Exact X S} {query : Query} {search : Search Exact X S}
    (met : Met planner query search) : search.Proper := by
  intro meeting isBest
  rcases met.best isBest with immediate | ⟨_, _, _, weight, _, isWeight, _⟩
  · exact ⟨0, immediate.weight⟩
  · exact ⟨weight, isWeight⟩

/-- Between two states of a search, the best meeting and the labels at its ends have stayed, or
a cheaper meeting was found. -/
def Search.Improves (search after : Search Exact X S) : Prop :=
  (after.best = search.best ∧ ∀ meeting, search.best = some meeting → ∀ direction,
    (after.tree direction).label? (meeting.ends.get direction) =
      (search.tree direction).label? (meeting.ends.get direction)) ∨
  ∃ value, after.bestWeight = .finite value ∧
    ∀ old, search.bestWeight = .finite old → value < old

namespace Search

variable {search middle after : Search Exact X S}

theorem Improves.refl (search : Search Exact X S) : search.Improves search :=
  .inl ⟨rfl, fun _ _ _ => rfl⟩

theorem bestWeight_congr (same : after.best = search.best) :
    after.bestWeight = search.bestWeight := by
  unfold bestWeight
  rw [same]

theorem Improves.trans (first : search.Improves middle) (second : middle.Improves after) :
    search.Improves after := by
  rcases first with ⟨sameBest, sameEnds⟩ | ⟨value, isBest, less⟩
  · rcases second with ⟨sameLater, sameLaterEnds⟩ | ⟨value, isBest, less⟩
    · refine .inl ⟨sameLater.trans sameBest, fun meeting isBest direction => ?_⟩
      rw [sameLaterEnds meeting (sameBest.trans isBest), sameEnds meeting isBest]
    · exact .inr ⟨value, isBest, bestWeight_congr sameBest ▸ less⟩
  · rcases second with ⟨sameLater, _⟩ | ⟨later, isLater, lessLater⟩
    · exact .inr ⟨value, (bestWeight_congr sameLater).trans isBest, less⟩
    · exact .inr ⟨later, isLater, fun old isOld => (lessLater value isBest).trans (less old isOld)⟩

theorem Improves.beats (improves : search.Improves after) {value : Rat}
    (beats : search.Beats value) : after.Beats value := by
  obtain ⟨best, atMost, isBest⟩ := beats
  rcases improves with ⟨sameBest, _⟩ | ⟨later, isLater, less⟩
  · exact ⟨best, atMost, (bestWeight_congr sameBest).trans isBest⟩
  · exact ⟨later, (less best isBest).le.trans atMost, isLater⟩

/-- A search improves when it takes a meeting that nothing beats. -/
theorem Improves.of_taken {meeting : Meeting Exact} {weight : Rat}
    (taken : after.best = some meeting) (isWeight : meeting.weight = .finite weight)
    (cheaper : ¬ search.Beats weight) : search.Improves after := by
  refine .inr ⟨weight, (Search.bestWeight_of_best taken).trans isWeight, fun old isOld => ?_⟩
  by_contra notLess
  exact cheaper ⟨old, not_lt.mp notLess, isOld⟩

end Search

section Overlap

variable {planner : Planner Exact X S} {key : StateKey} {first second : Rat}

theorem Planner.Overlap.unique (lawful : planner.network.Lawful)
    (left : planner.Overlap key first) (right : planner.Overlap key second) :
    first = second := by
  unfold Overlap at left right
  split at left
  · rename_i nodeBased
    rw [nodeBased] at right
    exact left.trans right.symm
  · rename_i edgeBased
    rw [edgeBased] at right
    obtain ⟨node, arc, member, _, isKey, isFirst⟩ := left
    obtain ⟨other, arcAgain, memberAgain, _, isKeyAgain, isSecond⟩ := right
    obtain ⟨sameEdge, sameSense⟩ := StateKind.key_eq (isKey.trans isKeyAgain.symm)
    rw [lawful.eq_of_reversed member memberAgain sameEdge sameSense, isFirst] at isSecond
    exact Exact.finite.inj isSecond

/-- Either direction counts the travel over an arc alike. -/
theorem Planner.overlap_of_cost (lawful : planner.network.Lawful)
    (level : planner.pricing.Level planner.network)
    (edgeBased : planner.settings.stateKind = .edgeBased) {node : NodeId} {arc : Arc Exact}
    {direction : Direction} (member : arc ∈ planner.network.arcs node)
    (isOpen : arc.isOpen direction = true)
    (cost : planner.pricing.cost arc direction noEdge = .finite first) :
    planner.Overlap (StateKind.edgeBased.key arc direction) first := by
  unfold Overlap
  rw [edgeBased]
  cases direction with
  | forward => exact ⟨node, arc, member, isOpen, rfl, cost⟩
  | backward =>
      have back := lawful.flip_mem member
      have backOpen : arc.flip.isOpen .forward = true := isOpen
      have travel := level.travel back backOpen
      rw [Arc.flip_flip] at travel
      exact ⟨arc.far, arc.flip, back, backOpen, StateKind.key_flip arc .forward,
        travel.symm.trans cost⟩

end Overlap

section Join

variable {planner : Planner Exact X S} {query : Query}
  {trees others : Sides (SearchTree Exact X)} {key : StateKey} {ids ends : Sides LabelId}
  {weight : Rat}

/-- A state joins two trees in one way only. -/
theorem Joins.unique (lawful : planner.network.Lawful) {idsAgain : Sides LabelId}
    {weightAgain : Rat} (joins : Joins planner trees key ids weight)
    (again : Joins planner trees key idsAgain weightAgain) :
    ids = idsAgain ∧ weight = weightAgain := by
  have sameIds : ids = idsAgain := Sides.ext_get fun direction =>
    Option.some.inj ((joins.found direction).symm.trans (again.found direction))
  subst sameIds
  obtain ⟨values, overlap, atIds, isOverlap, rfl⟩ := joins.weight
  obtain ⟨valuesAgain, overlapAgain, atIdsAgain, isOverlapAgain, rfl⟩ := again.weight
  have sameValues : values = valuesAgain := Sides.ext_get fun direction => by
    obtain ⟨label, atId, isValue⟩ := atIds direction
    obtain ⟨labelAgain, atIdAgain, isValueAgain⟩ := atIdsAgain direction
    rw [atId, Option.some.injEq] at atIdAgain
    rw [← atIdAgain, isValue, Exact.finite.injEq] at isValueAgain
    exact isValueAgain
  exact ⟨rfl, by rw [sameValues, isOverlap.unique lawful isOverlapAgain]⟩

theorem Joins.of_labels {here there : LabelId} {forward backward : Label Exact X}
    {source target overlap : Rat} (foundHere : trees.forward.lookup? key = some here)
    (foundThere : trees.backward.lookup? key = some there)
    (atHere : trees.forward.label? here = some forward)
    (atThere : trees.backward.label? there = some backward)
    (isSource : forward.weight = .finite source) (isTarget : backward.weight = .finite target)
    (overlaps : planner.Overlap key overlap) :
    Joins planner trees key ⟨here, there⟩ (source + target - overlap) where
  found direction := by
    cases direction with
    | forward => exact foundHere
    | backward => exact foundThere
  weight := by
    refine ⟨⟨source, target⟩, overlap, fun direction => ?_, overlaps, rfl⟩
    cases direction with
    | forward => exact ⟨forward, atHere, isSource⟩
    | backward => exact ⟨backward, atThere, isTarget⟩

/-- Labels join whichever direction they are looked at from. -/
theorem Joins.oriented {direction : Direction} {here there : LabelId}
    {label opposite : Label Exact X} {value far overlap : Rat}
    (foundHere : (trees.get direction).lookup? key = some here)
    (foundThere : (trees.get direction.opposite).lookup? key = some there)
    (atHere : (trees.get direction).label? here = some label)
    (atThere : (trees.get direction.opposite).label? there = some opposite)
    (isValue : label.weight = .finite value) (isFar : opposite.weight = .finite far)
    (overlaps : planner.Overlap key overlap) :
    Joins planner trees key (.oriented direction here there) (value + far - overlap) := by
  cases direction with
  | forward => exact .of_labels foundHere foundThere atHere atThere isValue isFar overlaps
  | backward =>
      rw [add_comm value far]
      exact .of_labels foundThere foundHere atThere atHere isFar isValue overlaps

theorem Joins.congr (joins : Joins planner trees key ids weight)
    (found : ∀ direction, (others.get direction).lookup? key = (trees.get direction).lookup? key)
    (labels : ∀ direction, (others.get direction).label? (ids.get direction) =
      (trees.get direction).label? (ids.get direction)) :
    Joins planner others key ids weight where
  found direction := (found direction).trans (joins.found direction)
  weight := by
    obtain ⟨values, overlap, atIds, isOverlap, isWeight⟩ := joins.weight
    refine ⟨values, overlap, fun direction => ?_, isOverlap, isWeight⟩
    rw [labels]
    exact atIds direction

theorem MeetsAt.congr (meetsAt : MeetsAt planner trees ids ends)
    (labels : ∀ direction, (others.get direction).label? (ids.get direction) =
      (trees.get direction).label? (ids.get direction)) :
    MeetsAt planner others ids ends := by
  unfold MeetsAt at meetsAt ⊢
  split at meetsAt
  · exact meetsAt
  · obtain ⟨direction, label, atId, isParent, other⟩ := meetsAt
    exact ⟨direction, label, (labels direction).trans atId, isParent, other⟩

variable {direction : Direction} {tree : SearchTree Exact X} {written : StateKey}
  {label : Label Exact X} {id : LabelId}

/-- Writing down a label leaves the index as it was under all other keys, and their labels. -/
theorem SearchTree.Tidy.elsewhere (ids : Sides LabelId) (tidy : (trees.get direction).Tidy)
    (writes : (trees.get direction).Writes written label id tree) (differs : key ≠ written) :
    (∀ side, ((trees.set direction tree).get side).lookup? key =
      (trees.get side).lookup? key) ∧
    ∀ side, (trees.get side).lookup? key = some (ids.get side) →
      ((trees.set direction tree).get side).label? (ids.get side) =
        (trees.get side).label? (ids.get side) := by
  constructor
  · intro side
    rcases Direction.eq_or_opposite direction side with rfl | rfl
    · rw [Sides.get_set, writes.lookup?, if_neg differs]
    · rw [Sides.get_opposite_set]
  · intro side found
    rcases Direction.eq_or_opposite direction side with rfl | rfl
    · have otherId : ids.get side ≠ id := fun same =>
        differs (tidy.eq_key writes (same ▸ found))
      rw [Sides.get_set, writes.label?_elsewhere otherId]
    · rw [Sides.get_opposite_set]

/-- A join in another state lasts. -/
theorem Joins.elsewhere (tidy : (trees.get direction).Tidy)
    (writes : (trees.get direction).Writes written label id tree) (differs : key ≠ written) :
    Joins planner (trees.set direction tree) key ids weight ↔
      Joins planner trees key ids weight := by
  obtain ⟨found, labels⟩ := tidy.elsewhere ids writes differs
  constructor
  · intro joins
    have foundBefore := fun side => (found side).symm.trans (joins.found side)
    exact joins.congr (fun side => (found side).symm)
      fun side => (labels side (foundBefore side)).symm
  · intro joins
    exact joins.congr found fun side => labels side (joins.found side)

/-- A join in the written state gets cheaper. -/
theorem Joins.overwritten (writes : (trees.get direction).Writes written label id tree)
    {value : Rat} (isValue : label.weight = .finite value)
    (joins : Joins planner trees written ids weight) :
    ∃ less, less < weight ∧ Joins planner (trees.set direction tree) written ids less := by
  obtain ⟨values, overlap, atIds, isOverlap, rfl⟩ := joins.weight
  rcases writes.written with ⟨unknown, _⟩ | ⟨known, settled, found, holds, cheaper, held, _⟩
  · rw [joins.found] at unknown
    cases unknown
  · have sameId : ids.get direction = id :=
      Option.some.inj ((joins.found direction).symm.trans found)
    obtain ⟨knownAgain, atKnown, isOld⟩ := atIds direction
    rw [sameId, holds.label?, Option.some.injEq] at atKnown
    rw [← atKnown] at isOld
    have less : value < values.get direction := by simpa [isValue, isOld] using cheaper
    let improved := values.set direction value
    refine ⟨improved.forward + improved.backward - overlap, ?_, ?_, improved, overlap, ?_,
      isOverlap, rfl⟩
    · cases direction with
      | forward =>
          change value + values.backward - overlap < values.forward + values.backward - overlap
          exact sub_lt_sub_right (add_lt_add_left less _) _
      | backward =>
          change values.forward + value - overlap < values.forward + values.backward - overlap
          exact sub_lt_sub_right (add_lt_add_right less _) _
    · intro side
      rcases Direction.eq_or_opposite direction side with rfl | rfl
      · rw [Sides.get_set, writes.lookup?, if_pos rfl, sameId]
      · rw [Sides.get_opposite_set]
        exact joins.found _
    · intro side
      rcases Direction.eq_or_opposite direction side with rfl | rfl
      · exact ⟨label, by rw [Sides.get_set, sameId, held.label?], by rw [isValue, Sides.get_set]⟩
      · rw [Sides.get_opposite_set, Sides.get_opposite_set]
        exact atIds _

end Join

section Meet

variable {planner : Planner Exact X S} {query : Query} {search mid after : Search Exact X S}
  {direction : Direction} {arc : Arc Exact} {label above : Label Exact X} {parent id : LabelId}
  {value : Rat}

/-- The label was written down for an open arc that costs a fraction next to some edge. -/
structure Planner.ComesOver (planner : Planner Exact X S) (direction : Direction)
    (parent : LabelId) (arc : Arc Exact) (label : Label Exact X) : Prop where
  member : ∃ node, arc ∈ planner.network.arcs node
  isOpen : arc.isOpen direction = true
  cost : ∃ neighbour value, planner.pricing.cost arc direction neighbour = .finite value
  parent : label.parent = some parent

theorem Planner.Reaches.comesOver
    (reaches : planner.Reaches query direction parent above arc label)
    (isValue : label.weight = .finite value) : planner.ComesOver direction parent arc label where
  member := ⟨above.node, reaches.member⟩
  isOpen := reaches.allows.1
  cost := by
    obtain ⟨cost, _, isCost, _, _⟩ := Exact.add_eq_finite (reaches.weight.symm.trans isValue)
    exact ⟨above.edge, cost, isCost⟩
  parent := reaches.parent

/-- The travel over an arc is an overlap of the trees that it is written down in. -/
theorem Planner.ComesOver.overlap (lawful : planner.network.Lawful)
    (level : planner.pricing.Level planner.network)
    (edgeBased : planner.settings.stateKind = .edgeBased)
    (comes : planner.ComesOver direction parent arc label) :
    ∃ overlap, planner.pricing.cost arc direction noEdge = .finite overlap ∧
      planner.Overlap (planner.settings.stateKind.key arc direction) overlap := by
  obtain ⟨node, member⟩ := comes.member
  obtain ⟨neighbour, value, isCost⟩ := comes.cost
  obtain ⟨overlap, isOverlap⟩ := level.alone member comes.isOpen isCost
  rw [edgeBased]
  exact ⟨overlap, isOverlap,
    planner.overlap_of_cost lawful level edgeBased member comes.isOpen isOverlap⟩

theorem Planner.ComesOver.overlaps (lawful : planner.network.Lawful)
    (level : planner.pricing.Level planner.network)
    (comes : planner.ComesOver direction parent arc label) :
    ∃ overlap, planner.Overlap (planner.settings.stateKind.key arc direction) overlap := by
  cases kind : planner.settings.stateKind with
  | nodeBased =>
      refine ⟨0, ?_⟩
      unfold Planner.Overlap
      rw [kind]
  | edgeBased =>
      obtain ⟨overlap, _, overlaps⟩ := comes.overlap lawful level kind
      exact ⟨overlap, kind ▸ overlaps⟩

/-- A label just written is held against the label of its state in the other tree. -/
theorem Planner.meet_cases (lawful : planner.network.Lawful)
    (level : planner.pricing.Level planner.network)
    (tidy : (mid.tree direction.opposite).Tidy)
    (comes : planner.ComesOver direction parent arc label)
    (isValue : label.weight = .finite value)
    (found : (mid.tree direction).lookup? (planner.settings.stateKind.key arc direction) =
      some id)
    (atId : (mid.tree direction).label? id = some label) :
    (mid.tree direction.opposite).lookup? (planner.settings.stateKind.key arc direction) = none ∧
      planner.meet direction arc id mid = mid ∨
    ∃ ids weight here,
      Joins planner mid.trees (planner.settings.stateKind.key arc direction) ids weight ∧
      MeetsAt planner mid.trees ids (.oriented direction here (ids.get direction.opposite)) ∧
      planner.meet direction arc id mid =
        mid.propose direction here (ids.get direction.opposite) (.finite weight) := by
  unfold Planner.meet
  dsimp only
  cases known : (mid.tree direction.opposite).lookup?
      (planner.settings.stateKind.key arc direction) with
  | none => exact .inl ⟨rfl, rfl⟩
  | some other =>
      right
      obtain ⟨opposite, atOther⟩ := tidy.inside known
      obtain ⟨far, isFar⟩ := tidy.finite atOther
      have joins {overlap : Rat}
          (overlaps : planner.Overlap (planner.settings.stateKind.key arc direction) overlap) :=
        Joins.oriented found known atId atOther isValue isFar overlaps
      dsimp only
      rw [atId, atOther]
      dsimp only
      rw [isValue, isFar]
      cases kind : planner.settings.stateKind with
      | nodeBased =>
          have overlaps : planner.Overlap (planner.settings.stateKind.key arc direction) 0 := by
            unfold Planner.Overlap
            rw [kind]
          refine ⟨.oriented direction id other, value + far, id, ?_, ?_, ?_⟩
          · have joined := joins overlaps
            rw [kind, sub_zero] at joined
            exact joined
          · unfold MeetsAt
            rw [kind, Sides.get_opposite_oriented]
          · rw [Sides.get_opposite_oriented]
            rfl
      | edgeBased =>
          obtain ⟨overlap, isOverlap, overlaps⟩ := comes.overlap lawful level kind
          refine ⟨.oriented direction id other, value + far - overlap, parent, ?_, ?_, ?_⟩
          · exact kind ▸ joins overlaps
          · unfold MeetsAt
            rw [kind]
            refine ⟨direction, label, ?_, ?_, ?_⟩
            · rw [Sides.get_oriented]
              exact atId
            · rw [Sides.get_oriented, comes.parent]
            · rw [Sides.get_opposite_oriented]
          · rw [comes.parent, Sides.get_opposite_oriented, isOverlap]
            dsimp only
            rw [Exact.finite_add, Exact.finite_sub]

/-- What becomes of the best meeting when a label was written: no join in its state is cheaper,
and a new one is taken only for such a join. -/
theorem Planner.meet_spec (lawful : planner.network.Lawful)
    (level : planner.pricing.Level planner.network)
    (tidy : (mid.tree direction.opposite).Tidy)
    (comes : planner.ComesOver direction parent arc label)
    (isValue : label.weight = .finite value)
    (found : (mid.tree direction).lookup? (planner.settings.stateKind.key arc direction) =
      some id)
    (atId : (mid.tree direction).label? id = some label) (proper : mid.Proper) :
    ∃ best meetings, planner.meet direction arc id mid =
        { mid with best := best, meetings := meetings } ∧
      (∀ ids weight,
        Joins planner mid.trees (planner.settings.stateKind.key arc direction) ids weight →
          (planner.meet direction arc id mid).Beats weight) ∧
      (best = mid.best ∨ ∃ ids ends weight,
        Joins planner mid.trees (planner.settings.stateKind.key arc direction) ids weight ∧
        MeetsAt planner mid.trees ids ends ∧ best = some ⟨ends, .finite weight⟩ ∧
        ¬ mid.Beats weight) := by
  rcases planner.meet_cases lawful level tidy comes isValue found atId with
    ⟨unknown, same⟩ | ⟨ids, weight, here, joins, meetsAt, proposed⟩
  · refine ⟨mid.best, mid.meetings, same, fun ids weight joins => ?_, .inl rfl⟩
    have joined := joins.found direction.opposite
    rw [show mid.trees.get direction.opposite = mid.tree direction.opposite from rfl,
      unknown] at joined
    cases joined
  · rw [proposed]
    rcases proper.propose direction here (ids.get direction.opposite) weight with
      ⟨beats, same⟩ | ⟨cheaper, taken⟩
    · refine ⟨mid.best, mid.meetings, same, fun idsAgain weightAgain again => ?_, .inl rfl⟩
      rw [same, (again.unique lawful joins).2]
      exact beats
    · refine ⟨_, _, taken, fun idsAgain weightAgain again => ?_,
        .inr ⟨ids, _, weight, joins, meetsAt, rfl, cheaper⟩⟩
      rw [taken, (again.unique lawful joins).2]
      exact ⟨weight, le_refl weight, rfl⟩

variable {tree : SearchTree Exact X}

/-- Writing down a label in another state leaves the ends of a meeting alone. -/
theorem Grown.ends_elsewhere
    (grown : ∀ side, Grown planner query side (search.tree side))
    (writes : (search.tree direction).Writes (planner.settings.stateKind.key arc direction) label
      id tree)
    (unsettled : ∀ known, ¬ (search.tree direction).Holds id known true)
    (meeting : Meeting Exact)
    (apart : Immediate planner query meeting ∨ ∃ key ids,
      key ≠ planner.settings.stateKind.key arc direction ∧
      (∀ side, (search.tree side).lookup? key = some (ids.get side)) ∧
      MeetsAt planner search.trees ids meeting.ends) (side : Direction) :
    ((search.trees.set direction tree).get side).label? (meeting.ends.get side) =
      (search.tree side).label? (meeting.ends.get side) := by
  rcases Direction.eq_or_opposite direction side with rfl | rfl
  · suffices differs : meeting.ends.get side ≠ id by
      rw [Sides.get_set, writes.label?_elsewhere differs]
    intro same
    rcases apart with immediate | ⟨key, ids, differs, found, meetsAt⟩
    · rw [immediate.ends, Sides.get_both] at same
      subst same
      obtain ⟨root, state, atRoot, _⟩ := (grown side).rooted
      rcases writes.written with ⟨_, fresh, _⟩ | ⟨_, _, known, _⟩
      · exact absurd (fresh ▸ atRoot.lt_size) (Nat.lt_irrefl _)
      · exact (grown side).lookup_ne_root immediate.edgeBased _ known
    · have notIndexed : meeting.ends.get side ≠ ids.get side := fun isId =>
        differs ((grown side).tidy.eq_key writes (same ▸ isId ▸ found side))
      unfold MeetsAt at meetsAt
      split at meetsAt
      · exact notIndexed (congrArg (Sides.get · side) meetsAt)
      · obtain ⟨other, held, atId, isParent, there⟩ := meetsAt
        rcases Direction.eq_or_opposite side other with rfl | rfl
        · obtain ⟨settled, holds⟩ := SearchTree.holds_of_label? atId
          obtain ⟨trail, branch⟩ := (grown other).branch holds
          obtain ⟨above, closed⟩ := branch.parent_settled isParent
          exact unsettled above (same ▸ closed)
        · rw [Direction.opposite_opposite] at there
          exact notIndexed there
  · rw [Sides.get_opposite_set]
    rfl

/-- A join that weighs as much as the best meeting is not in the state just written, where every
join has become cheaper. -/
theorem Joins.apart {key written : StateKey} {ids : Sides LabelId} {weight : Rat}
    (joins : Joins planner search.trees key ids weight)
    (writes : (search.tree direction).Writes written label id tree)
    (isValue : label.weight = .finite value) (best : after.bestWeight = .finite weight)
    (beats : ∀ ids weight, Joins planner (search.trees.set direction tree) written ids weight →
      after.Beats weight) : key ≠ written := by
  rintro rfl
  obtain ⟨less, isLess, cheaper⟩ := joins.overwritten writes isValue
  obtain ⟨least, atMost, isLeast⟩ := beats ids less cheaper
  rw [best, Exact.finite.injEq] at isLeast
  linarith

/-- A best meeting that stays is not put together in the state just written. -/
theorem Met.apart (met : Met planner query search)
    (writes : (search.tree direction).Writes (planner.settings.stateKind.key arc direction) label
      id tree)
    (isValue : label.weight = .finite value) (kept : after.best = search.best)
    (beats : ∀ ids weight, Joins planner (search.trees.set direction tree)
      (planner.settings.stateKind.key arc direction) ids weight → after.Beats weight)
    {meeting : Meeting Exact} (isBest : search.best = some meeting) :
    Immediate planner query meeting ∨ ∃ key ids weight,
      key ≠ planner.settings.stateKind.key arc direction ∧
      Joins planner search.trees key ids weight ∧ meeting.weight = .finite weight ∧
      MeetsAt planner search.trees ids meeting.ends := by
  refine (met.best isBest).imp_right ?_
  rintro ⟨_, key, ids, weight, joins, isWeight, meetsAt⟩
  have isBestWeight := (Search.bestWeight_of_best (kept.trans isBest)).trans isWeight
  exact ⟨key, ids, weight, joins.apart writes isValue isBestWeight beats, joins, isWeight,
    meetsAt⟩

/-- If the best meeting stays when a label is written down, so do the labels at its ends, and it
is still put together from a join. -/
theorem Met.write_kept (met : Met planner query search) (after : Search Exact X S)
    (grown : ∀ side, Grown planner query side (search.tree side))
    (writes : (search.tree direction).Writes (planner.settings.stateKind.key arc direction) label
      id tree)
    (unsettled : ∀ known, ¬ (search.tree direction).Holds id known true)
    (isValue : label.weight = .finite value)
    (trees : after.trees = search.trees.set direction tree) (kept : after.best = search.best)
    (beats : ∀ ids weight, Joins planner after.trees
      (planner.settings.stateKind.key arc direction) ids weight → after.Beats weight) :
    search.Improves after ∧ ∀ meeting, after.best = some meeting →
      Immediate planner query meeting ∨ ∃ key ids weight,
        Joins planner after.trees key ids weight ∧ meeting.weight = .finite weight ∧
        MeetsAt planner after.trees ids meeting.ends := by
  have apart {meeting : Meeting Exact} (isBest : search.best = some meeting) :=
    met.apart writes isValue kept (trees ▸ beats) isBest
  refine ⟨.inl ⟨kept, fun meeting isBest side => ?_⟩, fun meeting isBest => ?_⟩
  · have same : after.tree side = (search.trees.set direction tree).get side :=
      congrArg (Sides.get · side) trees
    rw [same]
    refine Grown.ends_elsewhere grown writes unsettled meeting ?_ side
    refine (apart isBest).imp_right ?_
    rintro ⟨key, ids, weight, differs, joins, _, meetsAt⟩
    exact ⟨key, ids, differs, joins.found, meetsAt⟩
  · refine (apart (kept.symm.trans isBest)).imp_right ?_
    rintro ⟨key, ids, weight, differs, joins, isWeight, meetsAt⟩
    rw [trees]
    exact ⟨key, ids, weight, (Joins.elsewhere (grown direction).tidy writes differs).mpr joins,
      isWeight, meetsAt.congr fun side =>
        ((grown direction).tidy.elsewhere ids writes differs).2 side (joins.found side)⟩

/-- Writing down a label and looking for its state in the other tree keeps the best meeting
best. -/
theorem Met.write (mid : Search Exact X S) (lawful : planner.network.Lawful)
    (fair : planner.pricing.Fair planner.network) (met : Met planner query search)
    (grown : ∀ side, Grown planner query side (search.tree side))
    (writes : (search.tree direction).Writes (planner.settings.stateKind.key arc direction) label
      id tree)
    (unsettled : ∀ known, ¬ (search.tree direction).Holds id known true)
    (reaches : planner.Reaches query direction parent above arc label)
    (isValue : label.weight = .finite value)
    (trees : mid.trees = search.trees.set direction tree) (best : mid.best = search.best) :
    ∃ best meetings,
      (if planner.settings.tracksMeeting = true then planner.meet direction arc id mid
        else mid) = { mid with best := best, meetings := meetings } ∧
      Met planner query { mid with best := best, meetings := meetings } ∧
      search.Improves { mid with best := best, meetings := meetings } := by
  have proper : mid.Proper := fun meeting isBest => met.proper meeting (best ▸ isBest)
  have midWeight : mid.bestWeight = search.bestWeight := Search.bestWeight_congr best
  by_cases tracks : planner.settings.tracksMeeting = true
  · rw [if_pos tracks]
    obtain ⟨here, there⟩ := Search.tree_of_set trees
    have found : (mid.tree direction).lookup? (planner.settings.stateKind.key arc direction) =
        some id := here ▸ writes.indexed
    have atId : (mid.tree direction).label? id = some label := here ▸ writes.label?
    obtain ⟨newBest, meetings, isMet, beats, choice⟩ := planner.meet_spec lawful fair.level
      (there ▸ (grown direction.opposite).tidy) (reaches.comesOver isValue) isValue found atId
      proper
    rw [isMet] at beats ⊢
    have improves : search.Improves { mid with best := newBest, meetings := meetings } ∧
        ∀ meeting, newBest = some meeting → Immediate planner query meeting ∨ ∃ key ids weight,
          Joins planner mid.trees key ids weight ∧ meeting.weight = .finite weight ∧
          MeetsAt planner mid.trees ids meeting.ends := by
      rcases choice with kept | ⟨ids, newEnds, weight, joins, meetsAt, isNew, cheaper⟩
      · exact met.write_kept { mid with best := newBest, meetings := meetings } grown writes
          unsettled isValue trees (kept.trans best) beats
      · refine ⟨.of_taken isNew rfl fun beaten => ?_, fun meeting isBest => ?_⟩
        · exact cheaper (beaten.imp fun _ => And.imp_right midWeight.trans)
        · rw [isNew, Option.some.injEq] at isBest
          subst isBest
          exact .inr ⟨_, ids, weight, joins, rfl, meetsAt⟩
    refine ⟨newBest, meetings, rfl, ⟨fun _ key ids weight joins => ?_, fun isBest => ?_⟩,
      improves.1⟩
    · by_cases same : key = planner.settings.stateKind.key arc direction
      · exact beats ids weight (same ▸ joins)
      · have before : Joins planner search.trees key ids weight := by
          apply (Joins.elsewhere (grown direction).tidy writes same).mp
          rw [← trees]
          exact joins
        exact improves.1.beats (met.least tracks before)
    · exact (improves.2 _ isBest).imp_right fun joined => ⟨tracks, joined⟩
  · rw [if_neg tracks]
    have immediate {meeting : Meeting Exact} (isBest : search.best = some meeting) :
        Immediate planner query meeting :=
      (met.best isBest).resolve_right fun tracked => tracks tracked.1
    refine ⟨mid.best, mid.meetings, rfl, ⟨fun tracked => absurd tracked tracks,
      fun isBest => .inl (immediate (best ▸ isBest))⟩, .inl ⟨best, fun meeting isBest side => ?_⟩⟩
    have same : mid.tree side = (search.trees.set direction tree).get side :=
      congrArg (Sides.get · side) trees
    exact same ▸ Grown.ends_elsewhere grown writes unsettled meeting (.inl (immediate isBest)) side

end Meet

end RouteSearch
