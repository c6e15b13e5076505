/-
This file proves that each direction finds the least costs. Until the best meeting stops it, what
it takes weighs what the cheapest trails cost, and when it has run out of open labels it knows
every state that a trail leads to.
-/

import RouteSearch.Proofs.Discipline

namespace RouteSearch

variable {X S : Type} {planner : Planner Exact X S} {query : Query} {direction : Direction}

/-- A tree in shape, in which every settled label was looked from over all its arcs but those
that wait. -/
structure Explored (planner : Planner Exact X S) (query : Query) (direction : Direction)
    (waits : LabelId → Arc Exact → Prop) (tree : SearchTree Exact X) : Prop where
  grown : Grown planner query direction tree
  looked : ∀ {id label arc}, tree.Holds id label true →
    planner.MayTake query direction label arc →
      waits id arc ∨ Covers planner direction tree label arc

/-- One more label waits to be looked from over some arcs. -/
def orFrom (waits : LabelId → Arc Exact → Prop) (id : LabelId) (arcs : List (Arc Exact)) :
    LabelId → Arc Exact → Prop :=
  fun other arc => waits other arc ∨ other = id ∧ arc ∈ arcs

section Step

variable {tree after : SearchTree Exact X} {search : Search Exact X S}
  {waits fewer : LabelId → Arc Exact → Prop} {step : Option (ArcFilter Exact)} {id : LabelId}
  {label : Label Exact X} {arc : Arc Exact} {rest : List (Arc Exact)} {bound value : Rat}

theorem Explored.weaken (explored : Explored planner query direction waits tree)
    (done : ∀ id arc, waits id arc → fewer id arc) :
    Explored planner query direction fewer tree :=
  ⟨explored.grown, fun holds mayTake => (explored.looked holds mayTake).imp_left (done _ _)⟩

theorem Explored.finish (explored : Explored planner query direction waits tree)
    (finished : Bool) : Explored planner query direction waits (tree.finish finished) :=
  ⟨explored.grown.finish finished, explored.looked⟩

/-- A label that was taken waits to be looked from over all its arcs. -/
theorem Explored.take (explored : Explored planner query direction waits tree)
    (ordered : tree.Ordered bound) (takes : tree.Takes id label after)
    (isValue : label.weight = .finite value) (dearer : bound ≤ value)
    (orderedAfter : after.Ordered value) :
    Explored planner query direction (orFrom waits id (planner.network.arcs label.node)) after where
  grown := explored.grown.take takes orderedAfter
  looked {other found arc} holds mayTake := by
    rcases takes.holds_iff.mp holds with ⟨rfl, rfl, _⟩ | ⟨_, held⟩
    · exact .inl (.inr ⟨rfl, mayTake.member⟩)
    · rcases explored.looked held mayTake with waiting | covers
      · exact .inl (.inl waiting)
      · exact .inr (covers.mono (ordered.grows_take takes isValue dearer))

/-- An arc that is covered already does not have to be looked over. -/
theorem Explored.skip
    (explored : Explored planner query direction (orFrom waits id (arc :: rest)) tree)
    (closed : tree.Holds id label true)
    (covers : planner.MayTake query direction label arc → Covers planner direction tree label arc) :
    Explored planner query direction (orFrom waits id rest) tree where
  grown := explored.grown
  looked {other found next} holds mayTake := by
    rcases explored.looked holds mayTake with (waiting | ⟨rfl, member⟩) | known
    · exact .inl (.inl waiting)
    · rcases List.mem_cons.mp member with rfl | later
      · obtain ⟨rfl, _⟩ := holds.unique closed
        exact .inr (covers mayTake)
      · exact .inl (.inr ⟨rfl, later⟩)
    · exact .inr known

/-- A tree that was written to lost no settled label and knows what it knew. -/
theorem Explored.write (explored : Explored planner query direction waits tree)
    (ordered : tree.Ordered bound) {made above : Label Exact X} {written parent : LabelId}
    (writes : tree.Writes (planner.settings.stateKind.key arc direction) made written after)
    (closed : tree.Holds parent above true)
    (reaches : planner.Reaches query direction parent above arc made)
    (isMade : made.weight = .finite value) (dearer : bound ≤ value) :
    Explored planner query direction waits after where
  grown := explored.grown.write ordered writes closed reaches isMade dearer
  looked {other found next} holds mayTake := by
    rcases (ordered.holds_write writes isMade dearer _ _ _).mp holds with ⟨_, _, isOpen⟩ | ⟨_, held⟩
    · cases isOpen
    · exact (explored.looked held mayTake).imp_right
        (Covers.mono (ordered.grows_write writes isMade dearer))

/-- Looking over one arc from the label taken last leaves one arc less to look over, and nothing
that was settled is lost. -/
theorem Explored.relax (network : planner.network.Lawful)
    (nonNegative : planner.pricing.NonNegative planner.network) (maker : planner.maker.Lawful)
    (explored : Explored planner query direction (orFrom waits id (arc :: rest))
      (search.tree direction))
    (ordered : (search.tree direction).Ordered value)
    (closed : (search.tree direction).Holds id label true) (isValue : label.weight = .finite value)
    (filter : search.filter = query.filter) (fits : StepFits query direction step label)
    (member : arc ∈ planner.network.arcs label.node) :
    let after := planner.relax direction step id label search arc
    Explored planner query direction (orFrom waits id rest) (after.tree direction) ∧
      (after.tree direction).Ordered value ∧ (after.tree direction).Holds id label true ∧
      after.filter = query.filter ∧ (search.tree direction).Grows (after.tree direction) := by
  have sameFilter := (planner.relax_touches direction step id label search arc).filter.trans filter
  rcases planner.relax_cases id network nonNegative maker explored.grown filter fits isValue member
    with ⟨same, covers⟩ | ⟨written, made, tree, makerState, updates, cost, writes, reaches,
      positive, isCost, isMade, relaxed⟩
  · rw [same]
    exact ⟨explored.skip closed covers, ordered, closed, filter, .refl _⟩
  · have here : (planner.relax direction step id label search arc).tree direction = tree := by
      rw [relaxed, Search.tree, planner.trees_met]
      exact Sides.get_set _ _ _
    have dearer : value ≤ cost + value := le_add_of_nonneg_left positive
    have grows := ordered.grows_write writes isMade dearer
    dsimp only
    rw [here]
    refine ⟨?_, ordered.write writes isMade dearer, grows.settled closed, sameFilter, grows⟩
    apply (explored.write ordered writes closed reaches isMade dearer).skip (grows.settled closed)
    intro _ weight price isWeight isPrice
    rw [isValue, Exact.finite.injEq] at isWeight
    rw [isCost, Exact.finite.injEq] at isPrice
    exact ⟨written, made, cost + value, writes.indexed, writes.label?, isMade,
      (isPrice ▸ isWeight ▸ le_rfl)⟩

/-- Looking over all arcs leaves none to look over. -/
theorem Explored.expand (network : planner.network.Lawful)
    (nonNegative : planner.pricing.NonNegative planner.network) (maker : planner.maker.Lawful)
    {arcs : List (Arc Exact)}
    (explored : Explored planner query direction (orFrom waits id arcs) (search.tree direction))
    (ordered : (search.tree direction).Ordered value)
    (closed : (search.tree direction).Holds id label true) (isValue : label.weight = .finite value)
    (filter : search.filter = query.filter) (fits : StepFits query direction step label)
    (members : ∀ arc ∈ arcs, arc ∈ planner.network.arcs label.node) :
    let after := arcs.foldl (planner.relax direction step id label) search
    Explored planner query direction waits (after.tree direction) ∧
      (search.tree direction).Grows (after.tree direction) := by
  induction arcs generalizing search with
  | nil =>
      refine ⟨explored.weaken ?_, .refl _⟩
      rintro _ _ (waiting | ⟨_, member⟩)
      · exact waiting
      · cases member
  | cons arc rest ih =>
      obtain ⟨exploredNext, orderedNext, closedNext, filterNext, grows⟩ := explored.relax network
        nonNegative maker ordered closed isValue filter fits (members arc List.mem_cons_self)
      have all := ih exploredNext orderedNext closedNext filterNext
        fun other later => members other (List.mem_cons_of_mem arc later)
      exact ⟨all.1, grows.trans all.2⟩

end Step

/-- A label that was beaten when it was taken is not looked from. -/
def Passed (past : List (Taking Exact X)) : LabelId → Arc Exact → Prop :=
  fun id _ => ∃ taking ∈ past, taking.id = id ∧ taking.beaten = true

/-- A step of a direction looks from the label that it takes, unless that is beaten. -/
theorem Explored.advance (network : planner.network.Lawful)
    (nonNegative : planner.pricing.NonNegative planner.network) (maker : planner.maker.Lawful)
    {search : Search Exact X S} {step : Option (ArcFilter Exact)} {past : List (Taking Exact X)}
    (explored : Explored planner query direction (Passed past) (search.tree direction))
    (filter : search.filter = query.filter)
    (fits : ∀ id label, (search.tree direction).Holds id label false →
      StepFits query direction step label) :
    let after := (planner.advanceUnder direction step search).2
    Explored planner query direction (Passed (past ++ (search.taking? direction).toList))
        (after.tree direction) ∧ (search.tree direction).Grows (after.tree direction) := by
  dsimp only
  obtain ⟨bound, ordered⟩ := explored.grown.ordered
  have proceeds := ordered.proceeds planner step
  generalize planner.advanceUnder direction step search = outcome,
    search.taking? direction = taken at proceeds ⊢
  have earlier (more : List (Taking Exact X)) (id : LabelId) (arc : Arc Exact)
      (passed : Passed past id arc) : Passed (past ++ more) id arc := by
    obtain ⟨taking, member, isTaking⟩ := passed
    exact ⟨taking, List.mem_append_left more member, isTaking⟩
  cases proceeds with
  | stuck empty =>
      rw [Option.toList_none, List.append_nil, Search.tree_withTree]
      exact ⟨explored.finish true, SearchTree.grows_finish _⟩
  | stopped takes isValue dearer orderedAfter beaten =>
      rw [Option.toList_some, Search.tree_withTree]
      refine ⟨.finish ?_ true,
        (ordered.grows_take takes isValue dearer).trans (SearchTree.grows_finish _)⟩
      apply (explored.take ordered takes isValue dearer orderedAfter).weaken
      rintro other arc (passed | ⟨rfl, _⟩)
      · exact earlier _ other arc passed
      · exact ⟨_, List.mem_concat_self, rfl, rfl⟩
  | @expanded id label tree _ takes isValue dearer orderedAfter unbeaten =>
      have waiting := explored.take ordered takes isValue dearer orderedAfter
      have grows := ordered.grows_take takes isValue dearer
      rw [← search.tree_withTree direction tree] at waiting orderedAfter takes grows
      obtain ⟨expanded, growsOn⟩ := waiting.expand network nonNegative maker orderedAfter
        takes.settled isValue filter (fits id label takes.taken) fun _ member => member
      exact ⟨expanded.weaken (earlier _), grows.trans growsOn⟩

/-- What holds of a direction while its query is advanced: its discipline, and what it has
explored. -/
structure Explores (planner : Planner Exact X S) (query : Query) (direction : Direction)
    (root : Label Exact X) (past : List (Taking Exact X)) (search : Search Exact X S) : Prop where
  filter : search.filter = query.filter
  disciplined : Disciplined planner direction root past (search.tree direction)
  explored : Explored planner query direction (Passed past) (search.tree direction)

section Query

variable {root : Label Exact X} {past : List (Taking Exact X)} {search : Search Exact X S}

theorem Explores.advance (network : planner.network.Lawful)
    (nonNegative : planner.pricing.NonNegative planner.network) (maker : planner.maker.Lawful)
    (explores : Explores planner query direction root past search)
    {filter : Option (ArcFilter Exact)}
    (fits : ∀ id label, (search.tree direction).Holds id label false →
      StepFits query direction filter label) :
    Explores planner query direction root (past ++ (search.taking? direction).toList)
      (planner.advanceUnder direction filter search).2 where
  filter := (planner.advanceUnder_touches direction filter search).filter.trans explores.filter
  disciplined := (explores.disciplined.advance nonNegative maker filter
    explores.explored.grown.ordered).2
  explored := (explores.explored.advance network nonNegative maker explores.filter fits).1

/-- A direction that has taken anything has taken its root. -/
theorem Explores.root_settled (explores : Explores planner query direction root past search)
    (taken : past ≠ []) : ∃ root, (search.tree direction).Holds 0 root true := by
  obtain ⟨taking, member⟩ := List.exists_mem_of_ne_nil past taken
  have closed := explores.disciplined.settled.mpr ⟨taking, member, rfl, rfl⟩
  obtain ⟨line, lineage⟩ := explores.disciplined.descends closed
  exact lineage.root_settled closed

/-- Once the root was taken under its pin, no step has to see to the pin. -/
theorem Explores.fits (explores : Explores planner query direction root past search)
    (ready : past ≠ [] ∨ query.pins.get direction = none) {id : LabelId} {label : Label Exact X}
    (holds : (search.tree direction).Holds id label false) :
    StepFits query direction none label :=
  explores.explored.grown.fits (ready.imp_left explores.root_settled) holds

/-- A direction goes on exploring without a filter, once its root was taken under its pin. -/
theorem Explores.onward (network : planner.network.Lawful)
    (nonNegative : planner.pricing.NonNegative planner.network) (maker : planner.maker.Lawful)
    (explores : Explores planner query direction root past search)
    (ready : past ≠ [] ∨ query.pins.get direction = none) :
    let onward := past ++ (search.taking? direction).toList
    Explores planner query direction root onward (planner.advance direction search).2 ∧
      (onward ≠ [] ∨ query.pins.get direction = none) :=
  ⟨explores.advance network nonNegative maker fun _ _ => explores.fits ready,
    ready.imp_left fun taken => List.append_ne_nil_of_left_ne_nil taken _⟩

/-- A step of the other direction does not touch the tree of this one. -/
theorem Explores.elsewhere (explores : Explores planner query direction root past search)
    (filter : Option (ArcFilter Exact)) :
    Explores planner query direction root past
      (planner.advanceUnder direction.opposite filter search).2 := by
  have touches := planner.advanceUnder_touches direction.opposite filter search
  have there := touches.there
  rw [Direction.opposite_opposite] at there
  exact ⟨touches.filter.trans explores.filter, there ▸ explores.disciplined,
    there ▸ explores.explored⟩

/-- Advances go on exploring in any order, once the root was taken under its pin. -/
theorem Explores.follow (network : planner.network.Lawful)
    (nonNegative : planner.pricing.NonNegative planner.network) (maker : planner.maker.Lawful)
    (explores : Explores planner query direction root past search)
    (ready : past ≠ [] ∨ query.pins.get direction = none) (schedule : List Direction) :
    Explores planner query direction root
      (past ++ planner.takings direction (schedule.map fun side => ⟨side, none⟩) search)
      (planner.follow (schedule.map fun side => ⟨side, none⟩) search) := by
  have kept := planner.follow_keeps direction (P := fun past search =>
    Explores planner query direction root past search ∧
      (past ≠ [] ∨ query.pins.get direction = none)) (schedule.map fun side => ⟨side, none⟩)
    ?_ ?_ past search ⟨explores, ready⟩
  · exact kept.1
  · rintro past filter search member ⟨explores, ready⟩
    obtain ⟨side, _, isStep⟩ := List.mem_map.mp member
    cases isStep
    exact explores.onward network nonNegative maker ready
  · exact fun past filter search ⟨explores, ready⟩ => ⟨explores.elsewhere filter, ready⟩

/-- The first step of a direction takes its root, under its pin. -/
theorem Explores.first (network : planner.network.Lawful)
    (nonNegative : planner.pricing.NonNegative planner.network) (maker : planner.maker.Lawful)
    (explores : Explores planner query direction root [] search)
    (planted : Planted planner query direction (search.tree direction)) :
    Explores planner query direction root (search.taking? direction).toList
        (planner.advanceUnder direction
          ((query.pins.get direction).map (ArcFilter.pinned · direction)) search).2 ∧
      (search.taking? direction).toList ≠ [] := by
  refine ⟨explores.advance network nonNegative maker
    fun id label holds => (planted.isRoot holds).fits, ?_⟩
  obtain ⟨bound, ordered⟩ := planted.grown.ordered
  obtain ⟨atRoot, settled, holds, _⟩ := planted.grown.rooted
  obtain ⟨_, rfl⟩ := planted.only holds
  have proceeds := ordered.proceeds planner none
  generalize planner.advanceUnder direction none search = outcome,
    search.taking? direction = taken at proceeds ⊢
  cases proceeds with
  | stuck empty => exact absurd holds (empty 0 atRoot)
  | stopped _ _ _ _ _ => exact List.cons_ne_nil _ _
  | expanded _ _ _ _ _ => exact List.cons_ne_nil _ _

variable {ends : Sides NodeId} {weights : Sides Rat} {begun : Search Exact X S} {now : Nat}

/-- Both directions of a query explore from their roots. -/
theorem Search.Blank.explores (blank : search.Blank) (maker : planner.maker.Lawful)
    (ends : Sides NodeId) (weights : Sides Rat) (now : Nat) (direction : Direction) :
    let planted := planner.planted ends.forward (.finite weights.forward) ends.backward
      (.finite weights.backward) now search
    ∃ root, Explores planner ⟨ends, weights, search.pins, search.filter⟩ direction root []
      planted := by
  intro planted
  obtain ⟨payload, finished, isPlanted⟩ := blank.planted_tree maker ends
    ⟨.finite weights.forward, .finite weights.backward⟩ now direction
  change planted.tree direction = _ at isPlanted
  have isWeight : (⟨.finite weights.forward, .finite weights.backward⟩ : Sides Exact).get
      direction = .finite (weights.get direction) := by cases direction <;> rfl
  rw [isWeight] at isPlanted
  have plantedTree := blank.planted maker ends weights now direction
  obtain ⟨_, filter, _⟩ := planner.planted_frame ends.forward (.finite weights.forward)
    ends.backward (.finite weights.backward) now search
  have disciplined : Disciplined planner direction
      ⟨noEdge, ends.get direction, .finite (weights.get direction), none, payload⟩ []
      (planted.tree direction) := by
    rw [isPlanted]
    exact .planted rfl (by simp) finished
  refine ⟨_, filter, disciplined, plantedTree.grown, fun holds _ => ?_⟩
  cases (plantedTree.only holds).2

/-- A query that is advanced explores from both of its roots. -/
theorem Search.Blank.queried (blank : search.Blank) (network : planner.network.Lawful)
    (nonNegative : planner.pricing.NonNegative planner.network) (maker : planner.maker.Lawful)
    (ends : Sides NodeId) (weights : Sides Rat) (now : Nat) (schedule : List Direction)
    (direction : Direction) :
    let planted := planner.planted ends.forward (.finite weights.forward) ends.backward
      (.finite weights.backward) now search
    let steps := planner.queried ends.forward ends.backward search schedule
    ∃ root, Explores planner ⟨ends, weights, search.pins, search.filter⟩ direction root
      (planner.takings direction steps planted) (planner.follow steps planted) := by
  intro planted steps
  obtain ⟨root, explores⟩ := blank.explores maker ends weights now direction
  have plantedTree := blank.planted maker ends weights now direction
  refine ⟨root, ?_⟩
  have isSteps : steps = planner.rootSteps ends.forward ends.backward search ++
      schedule.map fun side => ⟨side, none⟩ := rfl
  rw [isSteps, planner.takings_append, planner.follow_append]
  unfold Planner.rootSteps
  split
  · rename_i immediate
    have unpinned : search.isPinned = false := by simp_all
    have free := Search.isPinned_eq_false.mp unpinned direction
    exact explores.follow network nonNegative maker (.inr free) schedule
  · cases direction with
    | forward =>
        obtain ⟨first, taken⟩ := explores.first network nonNegative maker plantedTree
        have both := first.elsewhere
          ((search.pins.get .backward).map (ArcFilter.pinned · .backward))
        have expanded := both.follow network nonNegative maker (.inl taken) schedule
        simpa [Planner.takings, Planner.follow, Direction.opposite] using expanded
    | backward =>
        have forward := explores.elsewhere
          ((search.pins.get .forward).map (ArcFilter.pinned · .forward))
        have there := (planner.advanceUnder_touches .forward
          ((search.pins.get .forward).map (ArcFilter.pinned · .forward)) planted).there
        obtain ⟨both, taken⟩ := forward.first network nonNegative maker (there.symm ▸ plantedTree)
        have expanded := both.follow network nonNegative maker (.inl taken) schedule
        simpa [Planner.takings, Planner.follow, Direction.opposite] using expanded

end Query

section Least

variable {root label : Label Exact X} {past : List (Taking Exact X)} {search : Search Exact X S}
  {tree : SearchTree Exact X} {id : LabelId}

theorem Taking.mem_of_untilBeaten {taking : Taking Exact X}
    (member : taking ∈ Taking.untilBeaten past) : taking ∈ past := by
  induction past with
  | nil => cases member
  | cons first rest ih =>
      rw [untilBeaten] at member
      split at member
      · rw [List.mem_singleton.mp member]
        exact List.mem_cons_self
      · rcases List.mem_cons.mp member with rfl | later
        · exact List.mem_cons_self
        · exact List.mem_cons_of_mem _ (ih later)

/-- What was beaten does not come before anything up to the first label that was beaten. -/
theorem Taking.beaten_after {R : Taking Exact X → Taking Exact X → Prop}
    {taking other : Taking Exact X} (inOrder : past.Pairwise R)
    (member : taking ∈ Taking.untilBeaten past) (otherMember : other ∈ past)
    (beaten : other.beaten = true) : other = taking ∨ R taking other := by
  induction past with
  | nil => cases member
  | cons first rest ih =>
      obtain ⟨fromFirst, orderedRest⟩ := List.pairwise_cons.mp inOrder
      rw [untilBeaten] at member
      split at member
      · rw [List.mem_singleton.mp member]
        rcases List.mem_cons.mp otherMember with rfl | later
        · exact .inl rfl
        · exact .inr (fromFirst other later)
      · rename_i unbeaten
        rcases List.mem_cons.mp otherMember with rfl | later
        · exact absurd beaten unbeaten
        · rcases List.mem_cons.mp member with rfl | memberLater
          · exact .inr (fromFirst other later)
          · exact ih orderedRest memberLater later

/-- Every label stands at the end of a trail, and weighs what the trail costs. -/
theorem Grown.trail (grown : Grown planner query direction tree)
    (network : planner.network.Lawful) {settled : Bool} (holds : tree.Holds id label settled) :
    ∃ trail, Trail.Leads planner.network query direction trail label.node ∧
      planner.idAt? direction tree trail = some id ∧
      label.weight =
        trail.cost planner.pricing direction + .finite (query.weights.get direction) := by
  rcases grown.indexed holds with ⟨rfl, _⟩ | ⟨key, found⟩
  · have branch : Branch planner query direction tree [] 0 label :=
      .root holds (grown.eq_root holds)
    exact ⟨[], branch.leads network, rfl, branch.weight_eq⟩
  · obtain ⟨trail, branch, atKey⟩ := grown.branch_of_key found holds
    refine ⟨trail, branch.leads network, ?_, branch.weight_eq⟩
    cases branch with
    | root _ _ => rfl
    | step _ _ _ _ =>
        rw [Planner.stateAt?, Option.some.injEq] at atKey
        rwa [Planner.idAt?, atKey]

/-- What a direction takes until it is beaten weighs no more than any trail to the same state. -/
theorem Explores.least (explores : Explores planner query direction root past search)
    (lawful : planner.Lawful)
    (suited : planner.isEdgeBased = true ∨ ∀ side, query.pins.get side = none)
    (simple : planner.settings.stateKind = .nodeBased → planner.Simple)
    {taking : Taking Exact X} (member : taking ∈ Taking.untilBeaten past) {trail : Trail}
    {node : NodeId} (leads : trail.Leads planner.network query direction node)
    (atState : planner.idAt? direction (search.tree direction) trail = some taking.id) :
    Weight.atMost taking.label.weight
      (trail.cost planner.pricing direction + .finite (query.weights.get direction)) = true := by
  have grown := explores.explored.grown
  have taken := explores.disciplined.settled.mpr
    ⟨taking, Taking.mem_of_untilBeaten member, rfl, rfl⟩
  obtain ⟨value, isValue⟩ := grown.finite taken
  have price := Trail.cost_isPrice lawful.pricing leads
  cases isCost : trail.cost planner.pricing direction with
  | infinity =>
      rw [isValue]
      rfl
  | negativeInfinity => exact (isCost ▸ price).elim
  | undefined => exact (isCost ▸ price).elim
  | finite cost =>
      rw [isValue, Exact.finite_add, Exact.atMost_finite, decide_eq_true_iff]
      by_contra dearer
      rw [not_le] at dearer
      -- Every label that is cheaper than this one was taken before, and looked from.
      have looked {id : LabelId} {label : Label Exact X} {arc : Arc Exact} {weight : Rat}
          (holds : (search.tree direction).Holds id label true)
          (isWeight : label.weight = .finite weight)
          (within : weight ≤ cost + query.weights.get direction)
          (mayTake : planner.MayTake query direction label arc) :
          Covers planner direction (search.tree direction) label arc := by
        rcases explores.explored.looked holds mayTake with ⟨other, isOther, sameId, beaten⟩ | covers
        · have held := explores.disciplined.settled.mpr ⟨other, isOther, rfl, rfl⟩
          have sameLabel : other.label = label := (held.unique (sameId ▸ holds)).1
          rcases Taking.beaten_after explores.disciplined.inOrder member isOther beaten with
            rfl | atMost
          · rw [sameLabel, isWeight, Exact.finite.injEq] at isValue
            linarith
          · rw [sameLabel, isWeight, isValue, Exact.atMost_finite, decide_eq_true_iff] at atMost
            linarith
        · exact covers
      rcases grown.settles_or_waits lawful suited simple looked leads isCost le_rfl with
        ⟨id, label, weight, atTrail, holds, isWeight, atMost⟩ |
        ⟨id, label, weight, holds, isWeight, atMost⟩
      · rw [atState, Option.some.injEq] at atTrail
        rw [(taken.unique (atTrail ▸ holds)).1, isWeight, Exact.finite.injEq] at isValue
        linarith
      · obtain ⟨bound, ordered⟩ := grown.ordered
        obtain ⟨behind, atMostBound, isBehind⟩ := ordered.behind taken
        obtain ⟨ahead, atLeastBound, isAhead⟩ := ordered.ahead holds
        rw [isValue, Exact.finite.injEq] at isBehind
        rw [isWeight, Exact.finite.injEq] at isAhead
        linarith

/-- A direction that was never beaten and has run out of open labels knows exactly the states
that a trail of finite cost leads to. -/
theorem Explores.complete (explores : Explores planner query direction root past search)
    (lawful : planner.Lawful)
    (suited : planner.isEdgeBased = true ∨ ∀ side, query.pins.get side = none)
    (simple : planner.settings.stateKind = .nodeBased → planner.Simple)
    (empty : (search.tree direction).queue.isEmpty = true)
    (unbeaten : ∀ taking ∈ past, taking.beaten = false) (key : StateKey) :
    (∃ id, (search.tree direction).lookup? key = some id) ↔ ∃ trail node,
      Trail.Leads planner.network query direction trail node ∧
      planner.stateAt? query direction trail = some key ∧
      Weight.isFinite (trail.cost planner.pricing direction) = true := by
  have grown := explores.explored.grown
  constructor
  · rintro ⟨id, found⟩
    obtain ⟨trail, label, branch, atKey⟩ := grown.keyed found
    obtain ⟨settled, holds⟩ := branch.holds
    obtain ⟨value, isValue⟩ := grown.finite holds
    obtain ⟨cost, _, isCost, _⟩ := Exact.add_eq_finite (branch.weight_eq.symm.trans isValue)
    exact ⟨trail, label.node, branch.leads lawful.network, atKey, by
      rw [isCost, Exact.isFinite_finite]⟩
  · rintro ⟨trail, node, leads, atKey, isFinite⟩
    have price := Trail.cost_isPrice lawful.pricing leads
    obtain ⟨cost, isCost⟩ : ∃ cost, trail.cost planner.pricing direction = .finite cost := by
      cases isCost : trail.cost planner.pricing direction with
      | finite cost => exact ⟨cost, rfl⟩
      | infinity => cases isCost ▸ isFinite
      | negativeInfinity => exact (isCost ▸ price).elim
      | undefined => exact (isCost ▸ price).elim
    have looked {id : LabelId} {label : Label Exact X} {arc : Arc Exact} {weight : Rat}
        (holds : (search.tree direction).Holds id label true) (_ : label.weight = .finite weight)
        (_ : weight ≤ cost + query.weights.get direction)
        (mayTake : planner.MayTake query direction label arc) :
        Covers planner direction (search.tree direction) label arc := by
      rcases explores.explored.looked holds mayTake with ⟨taking, member, _, beaten⟩ | covers
      · rw [unbeaten taking member] at beaten
        cases beaten
      · exact covers
    rcases grown.settles_or_waits lawful suited simple looked leads isCost le_rfl with
      ⟨id, label, weight, atTrail, holds, _⟩ | ⟨id, label, weight, holds, _⟩
    · cases trail with
      | nil =>
          cases atTrail
          cases nodeBased : planner.isEdgeBased with
          | true => simp [Planner.stateAt?, nodeBased] at atKey
          | false =>
              rw [Planner.stateAt?, nodeBased] at atKey
              rw [← Option.some.inj atKey]
              exact ⟨0, grown.lookup_root nodeBased⟩
      | cons arc before =>
          rw [Planner.stateAt?, Option.some.injEq] at atKey
          exact ⟨id, atKey ▸ atTrail⟩
    · obtain ⟨bound, ordered⟩ := grown.ordered
      have queued := ordered.queued.mpr ⟨label, holds, rfl⟩
      rw [Array.isEmpty_iff.mp empty] at queued
      simp at queued

end Least

section Query

variable {list : EdgeList Exact} {search begun : Search Exact X S} {ends : Sides NodeId}
  {weights : Sides Rat} {now : Nat}

/-- In every state of a query that is advanced in any order, a direction has found the least
costs. A label weighs what some trail to its state costs, on top of the weight at the root. No
trail is cheaper than what was taken up to the first label that the best meeting beat. If it
beat none and no label is open, the states in the index are those that trails of finite cost
lead to. -/
theorem advances_leastCost (serves : planner.Serves list)
    (few : planner.settings.stateKind = .nodeBased → list.edges.size ≤ noEdge)
    (blank : search.Blank)
    (accepted : planner.start ends.forward (.finite weights.forward) ends.backward
      (.finite weights.backward) now search = .ok begun)
    (clock : Clock) (schedule : List Direction) (direction : Direction) :
    let query : Query := ⟨ends, weights, search.pins, search.filter⟩
    let tree := (planner.performAll clock (schedule.map .advance) begun).2.tree direction
    let past := planner.takings direction
      (planner.queried ends.forward ends.backward search schedule)
      (planner.planted ends.forward (.finite weights.forward) ends.backward
        (.finite weights.backward) now search)
    (∀ id label settled, tree.Holds id label settled → ∃ trail,
      Trail.Leads list.pack.network query direction trail label.node ∧
      planner.idAt? direction tree trail = some id ∧
      label.weight = trail.cost planner.pricing direction + .finite (weights.get direction)) ∧
    (∀ taking ∈ Taking.untilBeaten past, tree.Holds taking.id taking.label true ∧
      ∀ trail node, Trail.Leads list.pack.network query direction trail node →
        planner.idAt? direction tree trail = some taking.id →
        Weight.atMost taking.label.weight
          (trail.cost planner.pricing direction + .finite (weights.get direction)) = true) ∧
    (tree.queue.isEmpty = true → (∀ taking ∈ past, taking.beaten = false) → ∀ key,
      (∃ id, tree.lookup? key = some id) ↔ ∃ trail node,
        Trail.Leads list.pack.network query direction trail node ∧
        planner.stateAt? query direction trail = some key ∧
        Weight.isFinite (trail.cost planner.pricing direction) = true) := by
  intro query tree past
  have lawful := serves.lawful
  have simple (nodeBased : planner.settings.stateKind = .nodeBased) : planner.Simple :=
    ⟨(serves.nodeBased nodeBased).turnFree, serves.named few nodeBased⟩
  have suited := planner.suited_of_check (planner.start_eq_ok accepted).2
  obtain ⟨root, explores⟩ := blank.queried lawful.network lawful.pricing.price lawful.maker ends
    weights now schedule direction
  rw [← planner.performAll_queried accepted clock schedule] at explores
  rw [← serves.network]
  refine ⟨fun id label settled holds => explores.explored.grown.trail lawful.network holds,
    fun taking member => ⟨?_, fun trail node leads atState => ?_⟩, fun empty unbeaten key => ?_⟩
  · exact explores.disciplined.settled.mpr
      ⟨taking, Taking.mem_of_untilBeaten member, rfl, rfl⟩
  · exact explores.least lawful suited simple member leads atState
  · exact explores.complete lawful suited simple empty unbeaten key

/-- A search that leaves its source over the first street. -/
def Search.pinnedStreet : Search Exact Unit Unit :=
  (Search.fresh ()).withPin .forward (some 0)

theorem advances_leastCost_streets : ∃ begun : Search Exact Unit Unit,
    Planner.overStreets.start 0 (.finite 3) 2 (.finite 0) 0 .pinnedStreet = .ok begun ∧
      let query : Query := ⟨⟨0, 2⟩, ⟨3, 0⟩, Search.pinnedStreet.pins, none⟩
      let tree := (Planner.overStreets.performAll (fun _ => 0)
        ([Direction.forward, .backward].map .advance) begun).2.tree .forward
      let past := Planner.overStreets.takings .forward
        (Planner.overStreets.queried 0 2 .pinnedStreet [.forward, .backward])
        (Planner.overStreets.planted 0 (.finite 3) 2 (.finite 0) 0 .pinnedStreet)
      (∀ id label settled, tree.Holds id label settled → ∃ trail,
        Trail.Leads EdgeList.streets.pack.network query .forward trail label.node ∧
        Planner.overStreets.idAt? .forward tree trail = some id ∧
        label.weight = trail.cost Planner.overStreets.pricing .forward + .finite 3) ∧
      (∀ taking ∈ Taking.untilBeaten past, tree.Holds taking.id taking.label true ∧
        ∀ trail node, Trail.Leads EdgeList.streets.pack.network query .forward trail node →
          Planner.overStreets.idAt? .forward tree trail = some taking.id →
          Weight.atMost taking.label.weight
            (trail.cost Planner.overStreets.pricing .forward + .finite 3) = true) ∧
      (tree.queue.isEmpty = true → (∀ taking ∈ past, taking.beaten = false) → ∀ key,
        (∃ id, tree.lookup? key = some id) ↔ ∃ trail node,
          Trail.Leads EdgeList.streets.pack.network query .forward trail node ∧
          Planner.overStreets.stateAt? query .forward trail = some key ∧
          Weight.isFinite (trail.cost Planner.overStreets.pricing .forward) = true) := by
  let ends : Sides NodeId := ⟨0, 2⟩
  let weights : Sides Rat := ⟨3, 0⟩
  have blank : Search.pinnedStreet.Blank :=
    Planner.overStreets.performAll_blank (fun _ => 0) [.pin .forward (some 0)] () rfl
  have accepted : Planner.overStreets.start ends.forward (.finite weights.forward) ends.backward
      (.finite weights.backward) 0 .pinnedStreet = .ok (Planner.overStreets.seed 0 (.finite 3) 2
        (.finite 0) 0 .pinnedStreet) := rfl
  exact ⟨_, accepted, advances_leastCost Planner.overStreets_serves nofun blank accepted _ _
    .forward⟩

end Query

end RouteSearch
