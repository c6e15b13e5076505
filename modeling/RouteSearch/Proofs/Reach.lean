/-
This file proves that a direction finds the states along every trail it may follow: it has
settled them for no more than the trail costs, or still has an open label that is no dearer.
-/

import RouteSearch.Proofs.Start

namespace RouteSearch

variable {X S : Type}

/-- What a node-based search relies on: the pricing does not look at turns, and no edge is named
like the absence of one. -/
structure Planner.Simple (planner : Planner Exact X S) : Prop where
  turnFree : planner.pricing.TurnFree
  named : ∀ node, ∀ arc ∈ planner.network.arcs node, arc.edge ≠ noEdge

/-- Where a tree keeps the state that a trail ends in. -/
def Planner.idAt? (planner : Planner Exact X S) (direction : Direction)
    (tree : SearchTree Exact X) : Trail → Option LabelId
  | [] => some 0
  | arc :: _ => tree.lookup? (planner.settings.stateKind.key arc direction)

/-- The state at the end of a trail is settled, for no more than `limit`. -/
def Settles (planner : Planner Exact X S) (direction : Direction) (tree : SearchTree Exact X)
    (trail : Trail) (limit : Rat) : Prop :=
  ∃ id label value, planner.idAt? direction tree trail = some id ∧
    tree.Holds id label true ∧ label.weight = .finite value ∧ value ≤ limit

/-- Some open label weighs no more than `limit`. -/
def Waits (tree : SearchTree Exact X) (limit : Rat) : Prop :=
  ∃ id label value, tree.Holds id label false ∧ label.weight = .finite value ∧ value ≤ limit

section Grown

variable {planner : Planner Exact X S} {query : Query} {direction : Direction}
  {tree : SearchTree Exact X} {id : LabelId} {label : Label Exact X} {settled : Bool}

theorem Grown.lookup_node (grown : Grown planner query direction tree)
    (nodeBased : planner.settings.stateKind = .nodeBased) (holds : tree.Holds id label settled) :
    tree.lookup? label.node = some id := by
  rcases grown.indexed holds with ⟨_, edgeBased⟩ | ⟨key, found⟩
  · cases (planner.isEdgeBased_eq_false.mpr nodeBased).symm.trans edgeBased
  · obtain ⟨trail, branch, atKey⟩ := grown.branch_of_key found holds
    cases branch with
    | root holds isRoot =>
        rw [Planner.stateAt?, Planner.isEdgeBased, nodeBased] at atKey
        rwa [isRoot.node, Option.some.inj atKey]
    | @step before parent above arc _ _ _ branch closed reaches holds =>
        rw [Planner.stateAt?, nodeBased] at atKey
        have atFar : arc.far = key := Option.some.inj atKey
        rwa [reaches.node, atFar]

/-- The label of a trail's state stands at the trail's end, and in an edge-based search it comes
over the trail's last edge. -/
theorem Grown.at_trail (grown : Grown planner query direction tree)
    (lawful : planner.network.Lawful) {trail : Trail} {node : NodeId}
    (leads : trail.Leads planner.network query direction node)
    (atTrail : planner.idAt? direction tree trail = some id) (holds : tree.Holds id label settled) :
    label.node = node ∧ (planner.settings.stateKind = .edgeBased →
      label.edge = trail.lastEdge ∧ label.isRoot = trail.isEmpty) := by
  cases trail with
  | nil =>
      cases atTrail
      have isRoot := grown.eq_root holds
      refine ⟨isRoot.node.trans leads.symm, fun _ => ⟨isRoot.edge, ?_⟩⟩
      rw [Label.isRoot, isRoot.parent]
      rfl
  | cons arc before =>
      refine ⟨(grown.node_eq lawful leads.1 atTrail holds).trans leads.2.1.symm,
        fun edgeBased => ?_⟩
      obtain ⟨trail, branch, atKey⟩ := grown.branch_of_key atTrail holds
      rw [edgeBased] at atKey
      cases branch with
      | root holds isRoot =>
          rw [Planner.stateAt?, Planner.isEdgeBased, edgeBased] at atKey
          cases atKey
      | step branch closed reaches holds indexed =>
          rw [Planner.stateAt?, edgeBased] at atKey
          refine ⟨reaches.edge.trans (StateKind.key_eq (Option.some.inj atKey)).1, ?_⟩
          rw [Label.isRoot, reaches.parent]
          rfl

end Grown

section Trails

variable {planner : Planner Exact X S} {query : Query} {search : Search Exact X S}
  {tree : SearchTree Exact X} {direction : Direction} {id : LabelId} {label : Label Exact X}
  {before : Trail} {arc : Arc Exact} {value cost : Rat}

/-- A node-based search may turn back over the last edge of a label as well: where that leads,
it has been. -/
theorem Grown.known_back (grown : Grown planner query direction tree) (lawful : planner.Lawful)
    (nodeBased : planner.settings.stateKind = .nodeBased) (simple : planner.Simple)
    (holds : tree.Holds id label true) (isValue : label.weight = .finite value)
    (member : arc ∈ planner.network.arcs label.node) (back : arc.edge = label.edge) :
    ∃ other known found settled,
      tree.lookup? (planner.settings.stateKind.key arc direction) = some other ∧
      tree.Holds other known settled ∧ known.weight = .finite found ∧ found ≤ value := by
  obtain ⟨trail, branch⟩ := grown.branch holds
  cases branch with
  | root holds isRoot => exact absurd (back.trans isRoot.edge) (simple.named _ arc member)
  | @step before parent above last _ _ _ branch closed reaches _ =>
      obtain ⟨price, weight, isPrice, isWeight, sum⟩ :=
        Exact.add_eq_finite (reaches.weight.symm.trans isValue)
      have positive := (lawful.pricing.price reaches.member reaches.allows.1 _).nonneg isPrice
      rw [nodeBased]
      rcases lawful.network.same_edge reaches.member member (reaches.edge ▸ back.symm) with
        rfl | rfl
      · refine ⟨id, label, value, true, ?_, holds, isValue, le_rfl⟩
        change tree.lookup? arc.far = _
        rw [← reaches.node]
        exact grown.lookup_node nodeBased holds
      · refine ⟨parent, above, weight, true, ?_, closed, isWeight, ?_⟩
        · have near := lawful.network.near_eq reaches.member
          change tree.lookup? last.near = _
          rw [near]
          exact grown.lookup_node nodeBased closed
        · linarith

/-- A settled label that was looked from lets the tree know the state behind every arc that its
direction may follow. -/
theorem Grown.known_behind (grown : Grown planner query direction tree) (lawful : planner.Lawful)
    (suited : planner.isEdgeBased = true ∨ ∀ side, query.pins.get side = none)
    (simple : planner.settings.stateKind = .nodeBased → planner.Simple)
    (leads : Trail.Leads planner.network query direction (arc :: before) arc.far)
    (atBefore : planner.idAt? direction tree before = some id)
    (holds : tree.Holds id label true) (isValue : label.weight = .finite value)
    (isCost : planner.pricing.cost arc direction before.lastEdge = .finite cost)
    (looked : planner.MayTake query direction label arc →
      Covers planner direction tree label arc) :
    ∃ other known found settled,
      tree.lookup? (planner.settings.stateKind.key arc direction) = some other ∧
      tree.Holds other known settled ∧ known.weight = .finite found ∧ found ≤ cost + value := by
  obtain ⟨member, _, allows, leadsBefore⟩ := leads
  obtain ⟨atNode, atEdge⟩ := grown.at_trail lawful.network leadsBefore atBefore holds
  have positive := (lawful.pricing.price member allows.1 _).nonneg isCost
  by_cases turns : planner.isEdgeBased = true ∨ arc.edge ≠ label.edge
  · have mayTake : planner.MayTake query direction label arc := by
      refine ⟨atNode ▸ member, ⟨allows.1, allows.2.1, fun isRoot pin isPin => ?_⟩, turns⟩
      rcases suited with edgeBased | unpinned
      · have kind := planner.isEdgeBased_eq_true.mp edgeBased
        exact allows.2.2 ((atEdge kind).2 ▸ isRoot) pin isPin
      · rw [unpinned] at isPin
        cases isPin
    have sameCost : planner.pricing.cost arc direction label.edge = .finite cost := by
      cases kind : planner.settings.stateKind with
      | nodeBased =>
          rw [(simple kind).turnFree arc direction label.edge,
            ← (simple kind).turnFree arc direction before.lastEdge, isCost]
      | edgeBased => rw [(atEdge kind).1, isCost]
    obtain ⟨other, known, found, atKey, atOther, isFound, atMost⟩ :=
      looked mayTake value cost isValue sameCost
    obtain ⟨state, held⟩ := SearchTree.holds_of_label? atOther
    exact ⟨other, known, found, state, atKey, held, isFound, atMost⟩
  · obtain ⟨notEdgeBased, back⟩ := not_or.mp turns
    have kind := planner.isEdgeBased_eq_false.mp (Bool.eq_false_iff.mpr notEdgeBased)
    obtain ⟨other, known, found, state, atKey, held, isFound, atMost⟩ := grown.known_back lawful
      kind (simple kind) holds isValue (atNode ▸ member) (not_not.mp back)
    exact ⟨other, known, found, state, atKey, held, isFound, by linarith⟩

/-- A direction that has looked from all settled labels up to a limit has settled the state at
the end of a trail within the limit, for no more than the trail costs, or has an open label that
is no dearer. -/
theorem Grown.settles_or_waits (grown : Grown planner query direction tree)
    (lawful : planner.Lawful)
    (suited : planner.isEdgeBased = true ∨ ∀ side, query.pins.get side = none)
    (simple : planner.settings.stateKind = .nodeBased → planner.Simple) {limit : Rat}
    (looked : ∀ {id label arc value}, tree.Holds id label true → label.weight = .finite value →
      value ≤ limit → planner.MayTake query direction label arc →
        Covers planner direction tree label arc)
    {trail : Trail} {node : NodeId} (leads : trail.Leads planner.network query direction node)
    (isCost : trail.cost planner.pricing direction = .finite cost)
    (within : cost + query.weights.get direction ≤ limit) :
    Settles planner direction tree trail (cost + query.weights.get direction) ∨
      Waits tree (cost + query.weights.get direction) := by
  induction trail generalizing node cost with
  | nil =>
      cases isCost
      obtain ⟨root, settled, holds, isRoot⟩ := grown.rooted
      rw [zero_add]
      cases settled with
      | true => exact .inl ⟨0, root, _, rfl, holds, isRoot.weight, le_rfl⟩
      | false => exact .inr ⟨0, root, _, holds, isRoot.weight, le_rfl⟩
  | cons arc before ih =>
      obtain ⟨step, rest, isStep, isRest, rfl⟩ := Exact.add_eq_finite isCost
      have positive := (lawful.pricing.price leads.1 leads.2.2.1.1 _).nonneg isStep
      rcases ih leads.2.2.2 isRest (by linarith) with
        ⟨id, label, value, atBefore, holds, isValue, atMost⟩ |
        ⟨id, label, value, holds, isValue, atMost⟩
      · have far : Trail.Leads planner.network query direction (arc :: before) arc.far :=
          ⟨leads.1, rfl, leads.2.2⟩
        obtain ⟨other, known, found, settled, atKey, held, isFound, noMore⟩ :=
          grown.known_behind lawful suited simple far atBefore holds isValue isStep
            (looked holds isValue (by linarith))
        cases settled with
        | true => exact .inl ⟨other, known, found, atKey, held, isFound, by linarith⟩
        | false => exact .inr ⟨other, known, found, held, isFound, by linarith⟩
      · exact .inr ⟨id, label, value, holds, isValue, by linarith⟩

/-- A settled label that is not beaten was looked from over all its arcs. -/
theorem Underway.covers (underway : Underway planner query noArc search)
    (holds : (search.tree direction).Holds id label true) (isValue : label.weight = .finite value)
    (unbeaten : ¬ search.Beats value) (mayTake : planner.MayTake query direction label arc) :
    Covers planner direction (search.tree direction) label arc := by
  rcases underway.looked holds mayTake with waits | ⟨other, isOther, beats⟩ | covers
  · exact waits.elim
  · rw [isValue, Exact.finite.injEq] at isOther
    exact absurd (isOther ▸ beats) unbeaten
  · exact covers

theorem Underway.known_behind (underway : Underway planner query noArc search)
    (lawful : planner.Lawful)
    (suited : planner.isEdgeBased = true ∨ ∀ side, query.pins.get side = none)
    (simple : planner.settings.stateKind = .nodeBased → planner.Simple)
    (leads : Trail.Leads planner.network query direction (arc :: before) arc.far)
    (atBefore : planner.idAt? direction (search.tree direction) before = some id)
    (holds : (search.tree direction).Holds id label true) (isValue : label.weight = .finite value)
    (isCost : planner.pricing.cost arc direction before.lastEdge = .finite cost)
    (unbeaten : ¬ search.Beats value) :
    ∃ other known found settled,
      (search.tree direction).lookup? (planner.settings.stateKind.key arc direction) =
        some other ∧
      (search.tree direction).Holds other known settled ∧ known.weight = .finite found ∧
      found ≤ cost + value :=
  (underway.grown direction).known_behind lawful suited simple leads atBefore holds isValue isCost
    (underway.covers holds isValue unbeaten)

/-- A direction has settled the state at the end of a trail for no more than the trail costs, or
has an open label that is no dearer, unless the trail is beaten. -/
theorem Underway.settles_or_waits (underway : Underway planner query noArc search)
    (lawful : planner.Lawful)
    (suited : planner.isEdgeBased = true ∨ ∀ side, query.pins.get side = none)
    (simple : planner.settings.stateKind = .nodeBased → planner.Simple) {trail : Trail}
    {node : NodeId} (leads : trail.Leads planner.network query direction node)
    (isCost : trail.cost planner.pricing direction = .finite cost)
    (unbeaten : ¬ search.Beats (cost + query.weights.get direction)) :
    Settles planner direction (search.tree direction) trail
        (cost + query.weights.get direction) ∨
      Waits (search.tree direction) (cost + query.weights.get direction) :=
  (underway.grown direction).settles_or_waits lawful suited simple
    (fun holds isValue atMost mayTake => underway.covers holds isValue
      (fun beats => unbeaten (beats.mono atMost)) mayTake) leads isCost le_rfl

end Trails

end RouteSearch
