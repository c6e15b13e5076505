/-
This file proves that a query starts well: its roots are planted and looked from, under its pins.
-/

import RouteSearch.Search.Run
import RouteSearch.Proofs.Advance

namespace RouteSearch

section Root

variable {W X S : Type}

/-- Where a planner indexes a root. -/
def Planner.rootKey (planner : Planner W X S) (node : NodeId) : Option StateKey :=
  if planner.isEdgeBased then none else some node

variable [Weight W]

/-- An empty tree with a root added holds the root only, which is open. -/
theorem SearchTree.holds_addRoot {key : Option StateKey} {label found : Label W X}
    {id : LabelId} {settled : Bool} :
    (({} : SearchTree W X).addRoot key label).Holds id found settled ↔
      id = 0 ∧ found = label ∧ settled = false := by
  simp only [SearchTree.Holds, SearchTree.addRoot, SearchTree.add]
  rw [Array.getElem?_push]
  by_cases isFirst : id = 0
  · simp [isFirst, eq_comm]
  · simp [isFirst]

/-- The root is indexed by its node, unless states are edges. -/
theorem Planner.lookup?_addRoot {planner : Planner W X S} {node : NodeId} {label : Label W X}
    {key : StateKey} {id : LabelId} :
    (({} : SearchTree W X).addRoot (planner.rootKey node) label).lookup? key = some id ↔
      planner.isEdgeBased = false ∧ key = node ∧ id = 0 := by
  simp only [SearchTree.lookup?, SearchTree.addRoot, SearchTree.add, Planner.rootKey]
  cases planner.isEdgeBased with
  | true => simp
  | false =>
      simp only [Bool.false_eq_true, if_false, true_and]
      rw [Std.HashMap.getElem?_insert]
      by_cases same : key = node
      · simp [same, SearchTree.size, eq_comm]
      · simp [same, Ne.symm same]

end Root

variable {X S : Type} {planner : Planner Exact X S} {query : Query} {search : Search Exact X S}
  {direction : Direction}

/-- A tree of one open label, which has not been settled yet. -/
structure Planted (planner : Planner Exact X S) (query : Query) (direction : Direction)
    (tree : SearchTree Exact X) : Prop where
  grown : Grown planner query direction tree
  only : ∀ {id label settled}, tree.Holds id label settled → id = 0 ∧ settled = false
  lookup? : ∀ {key id}, tree.lookup? key = some id →
    planner.isEdgeBased = false ∧ key = query.ends.get direction ∧ id = 0

/-- A root alone is in order. It counts as the label taken last, before it is taken. -/
theorem SearchTree.ordered_addRoot {key : Option StateKey} {label : Label Exact X} {value : Rat}
    (isValue : label.weight = .finite value) :
    (({} : SearchTree Exact X).addRoot key label).Ordered value := by
  constructor
  · exact MinQueue.Valid.empty.push _ _
  · intro id weight
    simp only [SearchTree.addRoot, SearchTree.add]
    rw [MinQueue.mem_push MinQueue.Valid.empty.distinct]
    constructor
    · rintro (isNew | ⟨member, _⟩)
      · cases isNew
        exact ⟨label, SearchTree.holds_addRoot.mpr ⟨rfl, rfl, rfl⟩, rfl⟩
      · simp at member
    · rintro ⟨found, held, rfl⟩
      obtain ⟨rfl, rfl, _⟩ := SearchTree.holds_addRoot.mp held
      exact .inl rfl
  · have root : (({} : SearchTree Exact X).addRoot key label).Holds 0 label false :=
      SearchTree.holds_addRoot.mpr ⟨rfl, rfl, rfl⟩
    rw [SearchTree.lastWeight_of_last (show _ = some 0 from rfl) root.label?, isValue]
  · intro id found held
    cases (SearchTree.holds_addRoot.mp held).2.2
  · intro id found held
    obtain ⟨_, rfl, _⟩ := SearchTree.holds_addRoot.mp held
    exact ⟨_, le_refl _, isValue⟩
  · change _ = 0
    rw [Finset.card_eq_zero, Finset.eq_empty_iff_forall_notMem]
    intro id member
    obtain ⟨found, held⟩ := SearchTree.mem_settledIds.mp member
    cases (SearchTree.holds_addRoot.mp held).2.2

/-- A root alone is a tree in shape. -/
theorem planted_addRoot {label : Label Exact X} (isRoot : query.IsRoot direction label) :
    Planted planner query direction
      (({} : SearchTree Exact X).addRoot (planner.rootKey (query.ends.get direction)) label) := by
  have root : (({} : SearchTree Exact X).addRoot
      (planner.rootKey (query.ends.get direction)) label).Holds 0 label false :=
    SearchTree.holds_addRoot.mpr ⟨rfl, rfl, rfl⟩
  refine ⟨⟨⟨_, SearchTree.ordered_addRoot isRoot.weight⟩, ⟨label, false, root, isRoot⟩, ?_, ?_,
    ?_⟩, ?_, planner.lookup?_addRoot.mp⟩
  · intro key id found
    obtain ⟨nodeBased, rfl, rfl⟩ := planner.lookup?_addRoot.mp found
    refine ⟨[], label, .root root isRoot, ?_⟩
    rw [Planner.stateAt?, nodeBased]
    rfl
  · intro id found settled held
    obtain ⟨rfl, rfl, _⟩ := SearchTree.holds_addRoot.mp held
    cases edgeBased : planner.isEdgeBased with
    | true => exact .inl ⟨rfl, rfl⟩
    | false => exact .inr ⟨_, planner.lookup?_addRoot.mpr ⟨edgeBased, rfl, rfl⟩⟩
  · intro first second id atFirst atSecond
    rw [(planner.lookup?_addRoot.mp atFirst).2.1, (planner.lookup?_addRoot.mp atSecond).2.1]
  · intro id found settled held
    exact ⟨(SearchTree.holds_addRoot.mp held).1, (SearchTree.holds_addRoot.mp held).2.2⟩

/-- Planting a root plants a tree and leaves the rest of a search alone. -/
theorem Planner.plant_spec (lawful : planner.maker.Lawful) (empty : search.tree direction = {})
    {node : NodeId} {weight : Exact} (isEnd : node = query.ends.get direction)
    (isWeight : weight = .finite (query.weights.get direction)) :
    Planted planner query direction
        ((planner.plant direction node weight search).tree direction) ∧
      ((planner.plant direction node weight search).tree direction).finished = false ∧
      (planner.plant direction node weight search).tree direction.opposite =
        search.tree direction.opposite ∧
      (planner.plant direction node weight search).best = search.best ∧
      (planner.plant direction node weight search).filter = search.filter ∧
      (planner.plant direction node weight search).pins = search.pins := by
  obtain ⟨payload, made⟩ := lawful.root search.makerState node weight direction
  have here : (planner.plant direction node weight search).tree direction =
      ({} : SearchTree Exact X).addRoot (planner.rootKey (query.ends.get direction))
        (planner.maker.root search.makerState node weight direction).1 := by
    rw [Planner.plant, empty, ← isEnd]
    exact Sides.get_set _ _ _
  refine ⟨?_, ?_, Sides.get_opposite_set _ _ _, rfl, rfl, rfl⟩
  · rw [here]
    apply planted_addRoot
    rw [made, isEnd, isWeight]
    exact ⟨rfl, rfl, rfl, rfl⟩
  · rw [here]
    rfl

theorem Planted.finish {tree : SearchTree Exact X}
    (planted : Planted planner query direction tree) (finished : Bool) :
    Planted planner query direction (tree.finish finished) :=
  ⟨planted.grown.finish finished, planted.only, planted.lookup?⟩

theorem Planted.isRoot {tree : SearchTree Exact X} (planted : Planted planner query direction tree)
    {id : LabelId} {label : Label Exact X} {settled : Bool} (holds : tree.Holds id label settled) :
    query.IsRoot direction label := by
  obtain ⟨rfl, _⟩ := planted.only holds
  exact planted.grown.eq_root holds

/-- Two roots can only join at their own node, in a node-based search. -/
theorem Joins.planted (planted : ∀ side, Planted planner query side (search.tree side))
    {key : StateKey} {ids : Sides LabelId} {weight : Rat}
    (joins : Joins planner search.trees key ids weight) :
    planner.isEdgeBased = false ∧ query.ends.forward = query.ends.backward ∧
      weight = query.weights.forward + query.weights.backward := by
  have atForward := (planted .forward).lookup? (joins.found .forward)
  have atBackward := (planted .backward).lookup? (joins.found .backward)
  refine ⟨atForward.1, atForward.2.1.symm.trans atBackward.2.1, ?_⟩
  obtain ⟨values, overlap, labels, overlaps, rfl⟩ := joins.weight
  have isWeight (side : Direction) : values.get side = query.weights.get side := by
    obtain ⟨label, atId, isValue⟩ := labels side
    obtain ⟨settled, holds⟩ := SearchTree.holds_of_label? atId
    exact Exact.finite.inj (isValue.symm.trans ((planted side).isRoot holds).weight)
  have none : overlap = 0 := by
    unfold Planner.Overlap at overlaps
    split at overlaps
    · exact overlaps
    · rename_i edgeBased
      rw [Planner.isEdgeBased, edgeBased] at atForward
      cases atForward.1
  rw [none, sub_zero, show values.forward = _ from isWeight .forward,
    show values.backward = _ from isWeight .backward]
  rfl

/-- Nothing is settled yet, so nothing was missed. -/
theorem Underway.planted (planted : ∀ side, Planted planner query side (search.tree side))
    (filter : search.filter = query.filter) (met : Met planner query search)
    (finished : ∀ side, (search.tree side).finished = true →
      search.Beats (query.weights.get side)) : Underway planner query noArc search where
  filter := filter
  grown side := (planted side).grown
  met := met
  looked holds _ := by
    cases ((planted _).only holds).2
  exhausted {side} isFinished id label holds :=
    ⟨_, ((planted side).isRoot holds).weight, finished side isFinished⟩

/-- The first step of a direction is held to its pin. -/
theorem Query.IsRoot.fits {label : Label Exact X} (isRoot : query.IsRoot direction label) :
    StepFits query direction ((query.pins.get direction).map (ArcFilter.pinned · direction))
      label := by
  intro arc
  have atRoot : label.isRoot = true := by
    rw [Label.isRoot, isRoot.parent]
    rfl
  cases query.pins.get direction <;> simp [atRoot]

/-- A step without a filter suits every label once the root is settled. -/
theorem Grown.fits {tree : SearchTree Exact X} (grown : Grown planner query direction tree)
    (ready : (∃ root, tree.Holds 0 root true) ∨ query.pins.get direction = none) {id : LabelId}
    {label : Label Exact X} (holds : tree.Holds id label false) :
    StepFits query direction none label := by
  intro arc
  refine ⟨fun _ isRoot pin isPin => ?_, fun _ => rfl⟩
  rcases ready with ⟨root, atRoot⟩ | unpinned
  · obtain ⟨trail, branch⟩ := grown.branch holds
    rw [branch.isRoot_eq, List.isEmpty_iff] at isRoot
    subst isRoot
    cases branch with
    | root _ _ => cases (holds.unique atRoot).2
  · rw [unpinned] at isPin
    cases isPin

/-- The first step of a direction settles its root, under its pin. -/
theorem Underway.expandRoot (lawful : planner.Lawful)
    (underway : Underway planner query noArc search)
    (planted : Planted planner query direction (search.tree direction))
    (pins : search.pins = query.pins) :
    Underway planner query noArc (planner.expandRoot direction search) ∧
      search.Extends (planner.expandRoot direction search) ∧
      (∃ root, ((planner.expandRoot direction search).tree direction).Holds 0 root true) ∧
      ∃ progress, Search.Steps direction search progress (planner.expandRoot direction search) := by
  have fits (id : LabelId) (label : Label Exact X)
      (holds : (search.tree direction).Holds id label false) : StepFits query direction
        ((search.pins.get direction).map (ArcFilter.pinned · direction)) label := by
    rw [pins]
    exact (planted.isRoot holds).fits
  obtain ⟨advanced, extends_, steps⟩ := underway.advanceUnder lawful fits
  refine ⟨advanced, extends_, ?_, _, steps⟩
  rcases steps.settles with ⟨id, label, holds, settled⟩ | noneOpen
  · obtain ⟨rfl, _⟩ := planted.only holds
    exact ⟨label, settled⟩
  · obtain ⟨root, settled, holds, _⟩ := planted.grown.rooted
    obtain ⟨_, rfl⟩ := planted.only holds
    exact absurd holds (noneOpen 0 root)

/-- What holds of a search that has been started and not pinned or restricted anew. -/
structure Started (planner : Planner Exact X S) (query : Query) (search : Search Exact X S) :
    Prop where
  underway : Underway planner query noArc search
  suited : planner.isEdgeBased = true ∨ ∀ side, query.pins.get side = none
  ready : (∀ side, ∃ root, (search.tree side).Holds 0 root true) ∨
    search.Beats 0 ∧ ∀ side, query.pins.get side = none
  home : query.ends.forward = query.ends.backward → (∀ side, query.pins.get side = none) →
    planner.isEdgeBased = true ∨ planner.settings.tracksMeeting = true →
      search.Beats (query.weights.forward + query.weights.backward)

/-- A search on which no query was started yet. -/
structure Unused (query : Query) (search : Search Exact X S) : Prop where
  trees : search.trees = .both {}
  best : search.best = none
  filter : search.filter = query.filter
  pins : search.pins = query.pins

theorem Underway.expandRoots (lawful : planner.Lawful)
    (underway : Underway planner query noArc search)
    (planted : ∀ side, Planted planner query side (search.tree side))
    (pins : search.pins = query.pins) :
    Underway planner query noArc
        (planner.expandRoot .backward (planner.expandRoot .forward search)) ∧
      search.Extends (planner.expandRoot .backward (planner.expandRoot .forward search)) ∧
      ∀ side, ∃ root, ((planner.expandRoot .backward
        (planner.expandRoot .forward search)).tree side).Holds 0 root true := by
  obtain ⟨first, extends_, forward, _, steps⟩ :=
    underway.expandRoot lawful (planted .forward) pins
  have plantedThere : Planted planner query .backward
      ((planner.expandRoot .forward search).tree .backward) := steps.there.symm ▸ planted .backward
  obtain ⟨second, extendsAgain, backward, _⟩ :=
    first.expandRoot lawful plantedThere (steps.pins.trans pins)
  refine ⟨second, extends_.trans extendsAgain, fun side => ?_⟩
  cases side with
  | forward => exact forward.imp fun _ => (extendsAgain.grows .forward).settled
  | backward => exact backward

/-- Both roots of a query, planted one after the other. -/
def Planner.plantBoth (planner : Planner Exact X S) (query : Query) (search : Search Exact X S) :
    Search Exact X S :=
  planner.plant .backward query.ends.backward (.finite query.weights.backward)
    (planner.plant .forward query.ends.forward (.finite query.weights.forward) search)

theorem Unused.plantBoth (lawful : planner.maker.Lawful) (unused : Unused query search) :
    (∀ side, Planted planner query side ((planner.plantBoth query search).tree side)) ∧
      (∀ side, ((planner.plantBoth query search).tree side).finished = false) ∧
      (planner.plantBoth query search).best = none ∧
      (planner.plantBoth query search).filter = query.filter ∧
      (planner.plantBoth query search).pins = query.pins := by
  have empty (side : Direction) : search.tree side = {} :=
    (congrArg (Sides.get · side) unused.trees).trans (Sides.get_both _ _)
  obtain ⟨source, sourceOpen, others, best, filter, pins⟩ := planner.plant_spec lawful
    (empty .forward) (show _ = query.ends.get .forward from rfl) rfl
  have emptyThere : (planner.plant .forward query.ends.forward (.finite query.weights.forward)
      search).tree .backward = {} := others.trans (empty .backward)
  obtain ⟨target, targetOpen, there, bestAgain, filterAgain, pinsAgain⟩ :=
    planner.plant_spec lawful emptyThere (show _ = query.ends.get .backward from rfl) rfl
  refine ⟨fun side => ?_, fun side => ?_, bestAgain.trans (best.trans unused.best),
    filterAgain.trans (filter.trans unused.filter), pinsAgain.trans (pins.trans unused.pins)⟩
  · cases side with
    | forward => exact there.symm ▸ source
    | backward => exact target
  · cases side with
    | forward => exact (congrArg SearchTree.finished there).trans sourceOpen
    | backward => exact targetOpen

/-- Two planted roots have not met unless a node-based search starts where it ends. -/
theorem Met.planted (planted : ∀ side, Planted planner query side (search.tree side))
    (noBest : search.best = none)
    (apart : planner.settings.tracksMeeting = true → planner.isEdgeBased = false →
      query.ends.forward ≠ query.ends.backward) : Met planner query search where
  least tracks key ids weight joins := by
    obtain ⟨nodeBased, sameEnds, _⟩ := joins.planted planted
    exact absurd sameEnds (apart tracks nodeBased)
  best isBest := by
    rw [noBest] at isBest
    cases isBest

/-- In a node-based search that starts where it ends, the roots meet. -/
theorem Met.planted_home (planted : ∀ side, Planted planner query side (search.tree side))
    (tracks : planner.settings.tracksMeeting = true)
    (nodeBased : planner.settings.stateKind = .nodeBased)
    (sameEnds : query.ends.forward = query.ends.backward)
    (best : search.best =
      some ⟨.both 0, .finite (query.weights.forward + query.weights.backward)⟩) :
    Met planner query search where
  least _ key ids weight joins := by
    refine ⟨_, le_refl _, ?_⟩
    rw [(joins.planted planted).2.2, Search.bestWeight, best]
  best {meeting} isBest := by
    have notEdgeBased := planner.isEdgeBased_eq_false.mpr nodeBased
    have atEnds (side : Direction) : query.ends.get side = query.ends.forward := by
      cases side with
      | forward => rfl
      | backward => exact sameEnds.symm
    rw [best, Option.some.injEq] at isBest
    subst isBest
    refine .inr ⟨tracks, query.ends.forward, .both 0, _, ⟨fun side => ?_, query.weights, 0,
      fun side => ?_, ?_, (sub_zero _).symm⟩, rfl, ?_⟩
    · rw [Sides.get_both, ← atEnds side]
      exact (planted side).grown.lookup_root notEdgeBased
    · obtain ⟨root, settled, holds, isRoot⟩ := (planted side).grown.rooted
      exact ⟨root, by rw [Sides.get_both]; exact holds.label?, isRoot.weight⟩
    · unfold Planner.Overlap
      rw [nodeBased]
    · unfold MeetsAt
      rw [nodeBased]

/-- A search in which the roots of a query were planted. They are a way already if the query ends
where it starts and nothing keeps its roots apart. -/
structure Rooted (planner : Planner Exact X S) (query : Query) (search : Search Exact X S) :
    Prop where
  planted : ∀ side, Planted planner query side (search.tree side)
  underway : Underway planner query noArc search
  pins : search.pins = query.pins
  home : query.ends.forward = query.ends.backward → (∀ side, query.pins.get side = none) →
    planner.isEdgeBased = true ∨ planner.settings.tracksMeeting = true →
      search.Beats (query.weights.forward + query.weights.backward)

/-- A node-based search that ends where it starts begins with the meeting of its roots. -/
theorem Rooted.atHome (planted : ∀ side, Planted planner query side (search.tree side))
    (filter : search.filter = query.filter) (pins : search.pins = query.pins)
    (notFinished : ∀ side, (search.tree side).finished = false)
    (tracks : planner.settings.tracksMeeting = true)
    (nodeBased : planner.settings.stateKind = .nodeBased)
    (sameEnds : query.ends.forward = query.ends.backward) :
    Rooted planner query { search with
      best := some ⟨.both 0, .finite (query.weights.forward + query.weights.backward)⟩ } where
  planted := planted
  underway := .planted planted filter (.planted_home planted tracks nodeBased sameEnds rfl)
    fun side isFinished => by
      cases (notFinished side).symm.trans isFinished
  pins := pins
  home _ _ _ := ⟨_, le_refl _, rfl⟩

/-- An edge-based search that ends where it starts is over at once if it has no pins. -/
theorem Rooted.immediate (planted : ∀ side, Planted planner query side (search.tree side))
    (filter : search.filter = query.filter) (pins : search.pins = query.pins)
    (edgeBased : planner.isEdgeBased = true) (sameEnds : query.ends.forward = query.ends.backward)
    (unpinned : ∀ side, query.pins.get side = none)
    (weights : ∀ side, 0 ≤ query.weights.get side) :
    Rooted planner query { search with
      best := some ⟨.both 0, .finite 0⟩
      trees := search.trees.map (·.finish true) } := by
  have finished (side : Direction) : Planted planner query side (Search.tree
      { search with
        best := some ⟨.both 0, .finite 0⟩
        trees := search.trees.map (·.finish true) } side) := by
    rw [Search.tree, Sides.get_map]
    exact (planted side).finish true
  have beats {value : Rat} (positive : 0 ≤ value) : Search.Beats (X := X) (S := S)
      { search with
        best := some ⟨.both 0, .finite 0⟩
        trees := search.trees.map (·.finish true) } value := ⟨0, positive, rfl⟩
  refine ⟨finished, .planted finished filter ⟨fun _ key ids weight joins => ?_, fun isBest => ?_⟩
    fun side _ => beats (weights side), pins, fun _ _ _ =>
      beats (add_nonneg (weights .forward) (weights .backward))⟩
  · have nodeBased := (joins.planted finished).1
    rw [edgeBased] at nodeBased
    cases nodeBased
  · cases isBest
    exact .inl ⟨edgeBased, sameEnds, unpinned, rfl, rfl⟩

/-- The roots of a search are no way yet if they are kept apart. -/
theorem Rooted.away (planted : ∀ side, Planted planner query side (search.tree side))
    (filter : search.filter = query.filter) (pins : search.pins = query.pins)
    (notFinished : ∀ side, (search.tree side).finished = false) (met : Met planner query search)
    (away : ¬ (query.ends.forward = query.ends.backward ∧ (∀ side, query.pins.get side = none) ∧
      (planner.isEdgeBased = true ∨ planner.settings.tracksMeeting = true))) :
    Rooted planner query search where
  planted := planted
  underway := .planted planted filter met fun side isFinished => by
    cases (notFinished side).symm.trans isFinished
  pins := pins
  home same unpinned applies := absurd ⟨same, unpinned, applies⟩ away

/-- A search is started when its roots are looked from. -/
theorem Rooted.started (lawful : planner.Lawful) (rooted : Rooted planner query search)
    (suited : planner.isEdgeBased = true ∨ ∀ side, query.pins.get side = none) :
    Started planner query (planner.expandRoot .backward (planner.expandRoot .forward search)) := by
  obtain ⟨expanded, extends_, ready⟩ :=
    rooted.underway.expandRoots lawful rooted.planted rooted.pins
  exact ⟨expanded, suited, .inl ready, fun same unpinned applies =>
    extends_.improves.beats (rooted.home same unpinned applies)⟩

theorem Search.isPinned_eq_false :
    search.isPinned = false ↔ ∀ side, search.pins.get side = none := by
  rw [Search.isPinned, Bool.or_eq_false_iff, Option.isSome_eq_false_iff,
    Option.isSome_eq_false_iff, Option.isNone_iff_eq_none, Option.isNone_iff_eq_none]
  constructor
  · intro none side
    cases side with
    | forward => exact none.1
    | backward => exact none.2
  · intro none
    exact ⟨none .forward, none .backward⟩

/-- A query begins with its planted roots, which are looked from unless they are the answer. -/
theorem Unused.rooted (lawful : planner.maker.Lawful) (unused : Unused query search)
    (weights : ∀ side, 0 ≤ query.weights.get side) (now : Nat) :
    let begun := planner.seed query.ends.forward (.finite query.weights.forward)
      query.ends.backward (.finite query.weights.backward) now search
    ∃ roots, Rooted planner query roots ∧
      (begun = planner.expandRoot .backward (planner.expandRoot .forward roots) ∨
        begun = roots ∧ roots.Beats 0 ∧ ∀ side, query.pins.get side = none) := by
  have unusedNow : Unused query
      { search with seeded := true, startedAt := some now } :=
    ⟨unused.trees, unused.best, unused.filter, unused.pins⟩
  obtain ⟨planted, notFinished, noBest, filter, pins⟩ := unusedNow.plantBoth lawful
  have roots : (⟨search.trees.forward.size, search.trees.backward.size⟩ : Sides LabelId) =
      .both 0 := by
    rw [unused.trees]
    rfl
  unfold Planner.seed
  dsimp only
  rw [roots, show planner.plant .backward query.ends.backward _ (planner.plant .forward _ _ _) =
    planner.plantBoth query { search with seeded := true, startedAt := some now } from rfl]
  generalize planner.plantBoth query { search with seeded := true, startedAt := some now } = both
    at *
  have plainly := Rooted.away planted filter pins notFinished
  by_cases sameEnds : query.ends.forward = query.ends.backward
  swap
  · rw [if_neg sameEnds]
    exact ⟨both, plainly (.planted planted noBest fun _ _ => sameEnds)
      fun home => sameEnds home.1, .inl rfl⟩
  rw [if_pos sameEnds]
  cases kind : planner.settings.stateKind with
  | nodeBased =>
      dsimp only
      by_cases tracks : planner.settings.tracksMeeting = true
      · rw [if_pos tracks]
        exact ⟨_, .atHome planted filter pins notFinished tracks kind sameEnds, .inl rfl⟩
      · rw [if_neg tracks]
        refine ⟨both, plainly (.planted planted noBest fun tracked => absurd tracked tracks) ?_,
          .inl rfl⟩
        rintro ⟨_, _, edgeBased | tracked⟩
        · cases (planner.isEdgeBased_eq_false.mpr kind).symm.trans edgeBased
        · exact tracks tracked
  | edgeBased =>
      have edgeBased := planner.isEdgeBased_eq_true.mpr kind
      dsimp only
      cases pinned : both.isPinned with
      | true =>
          rw [if_pos rfl]
          refine ⟨both, plainly (.planted planted noBest fun _ nodeBased => ?_) ?_, .inl rfl⟩
          · cases edgeBased.symm.trans nodeBased
          · rintro ⟨_, unpinned, _⟩
            rw [Search.isPinned_eq_false.mpr (pins ▸ unpinned)] at pinned
            cases pinned
      | false =>
          rw [if_neg Bool.false_ne_true]
          have unpinned := pins ▸ Search.isPinned_eq_false.mp pinned
          exact ⟨_, .immediate planted filter pins edgeBased sameEnds unpinned weights,
            .inr ⟨rfl, ⟨0, le_rfl, rfl⟩, unpinned⟩⟩

/-- A query that is let through starts a search well. -/
theorem Unused.seed (lawful : planner.Lawful) (unused : Unused query search)
    (weights : ∀ side, 0 ≤ query.weights.get side)
    (suited : planner.isEdgeBased = true ∨ ∀ side, query.pins.get side = none) (now : Nat) :
    Started planner query (planner.seed query.ends.forward (.finite query.weights.forward)
      query.ends.backward (.finite query.weights.backward) now search) := by
  obtain ⟨roots, rooted, isBegun | ⟨isBegun, beats, unpinned⟩⟩ :=
    unused.rooted lawful.maker weights now
  · rw [isBegun]
    exact rooted.started lawful suited
  · rw [isBegun]
    exact ⟨rooted.underway, suited, .inr ⟨beats, unpinned⟩, rooted.home⟩

/-- An advance keeps a started search going. -/
theorem Started.advance (lawful : planner.Lawful) (started : Started planner query search)
    (direction : Direction) :
    Started planner query (planner.advance direction search).2 ∧
      search.Extends (planner.advance direction search).2 ∧
      Search.Steps direction search (planner.advance direction search).1
        (planner.advance direction search).2 := by
  have fits (id : LabelId) (label : Label Exact X)
      (holds : (search.tree direction).Holds id label false) :
      StepFits query direction none label :=
    (started.underway.grown direction).fits
      (started.ready.imp (fun settled => settled direction) fun unpinned => unpinned.2 direction)
      holds
  obtain ⟨advanced, extends_, steps⟩ := started.underway.advanceUnder lawful fits
  refine ⟨⟨advanced, started.suited, ?_, fun same unpinned applies => ?_⟩, extends_, steps⟩
  · refine started.ready.imp (fun settled side => ?_) (And.imp_left extends_.improves.beats)
    exact (settled side).imp fun _ => (extends_.grows side).settled
  · exact extends_.improves.beats (started.home same unpinned applies)

/-- Pins are let through in an edge-based search only. -/
theorem Planner.suited_of_check {source target : NodeId}
    (accepted : planner.check search source target = .ok ()) :
    planner.isEdgeBased = true ∨ ∀ side, search.pins.get side = none := by
  unfold Planner.check at accepted
  split at accepted
  · cases accepted
  · cases checked : planner.settings.check with
    | error fault =>
        rw [checked] at accepted
        cases accepted
    | ok =>
        rw [checked] at accepted
        simp only [bind, Except.bind] at accepted
        split at accepted
        · cases accepted
        · rename_i allowed
          rw [Search.isPinned] at allowed
          refine or_iff_not_imp_left.mpr fun nodeBased side => ?_
          cases side <;> simp_all [Sides.get]

end RouteSearch
