/-
This file proves that the routes of an edge-based search turn only where the rules for turns let
them. Turning back on an edge is not a matter of the rules but of its own price.
-/

import RouteSearch.Proofs.Chronicle
import RouteSearch.Proofs.TurnRules
import Mathlib.Data.List.Chain

namespace RouteSearch

variable {W X S : Type}

/-- The turn from one label to the next one, in the order of travel. -/
def Direction.turn (direction : Direction) (above label : Label W X) : Turn :=
  match direction with
  | .forward => ⟨above.edge, above.node, label.edge⟩
  | .backward => ⟨label.edge, above.node, above.edge⟩

section Arrivals

variable {permitted : Turn → Prop} {forward backward chain : List (Label W X)}

/-- The edges along both chains in the order of travel, each with the node that it leads to. -/
def Route.arrivals (forward backward : List (Label W X)) : List (EdgeId × NodeId) :=
  (forward.dropLast.map fun label => (label.edge, label.node)).reverse ++
    (hops backward).map fun hop => (hop.edge, hop.parentNode)

theorem Route.hops_edges (chain : List (Label W X)) :
    (hops chain).map (·.edge) = chain.dropLast.map (·.edge) := by
  induction chain with
  | nil => rfl
  | cons label rest ih =>
      cases rest with
      | nil => rfl
      | cons above rest => exact congrArg (label.edge :: ·) ih

theorem Route.hops_parents (chain : List (Label W X)) :
    (hops chain).map (·.parentNode) = (chain.map (·.node)).tail := by
  induction chain with
  | nil => rfl
  | cons label rest ih =>
      cases rest with
      | nil => rfl
      | cons above rest => exact congrArg (above.node :: ·) ih

/-- A route runs over the edges, and from its first node on along the nodes that they lead to. -/
theorem Route.splice_arrivals [Weight W] (network : Network W) (weight : W)
    (isChain : forward ≠ []) :
    (splice network weight forward backward).edges = (arrivals forward backward).map Prod.fst ∧
    (splice network weight forward backward).nodes.tail =
      (arrivals forward backward).map Prod.snd := by
  constructor
  · simp [splice, arrivals, hops_edges, Function.comp_def]
  · obtain ⟨older, root, rfl⟩ := (List.eq_nil_or_concat forward).resolve_left isChain
    simp only [splice, arrivals, ← hops_parents]
    simp [Function.comp_def]

/-- Where the turns on both chains are permitted, and the one between them, all turns along the
edges are. -/
theorem Route.arrivals_permitted {label opposite : Label W X} {older others : List (Label W X)}
    (left : (label :: older).IsChain
      fun label above => permitted (Direction.forward.turn above label))
    (right : (opposite :: others).IsChain
      fun label above => permitted (Direction.backward.turn above label))
    (across : permitted ⟨label.edge, label.node, opposite.edge⟩) :
    (arrivals (label :: older) (opposite :: others)).IsChain
      fun first second => permitted ⟨first.1, first.2, second.1⟩ := by
  rw [arrivals, List.isChain_append]
  refine ⟨?_, ?_, ?_⟩
  · rw [List.isChain_reverse, List.isChain_map]
    exact left.dropLast
  · rw [List.isChain_map]
    clear across left
    induction others generalizing opposite with
    | nil => exact .nil
    | cons above others ih =>
        cases others with
        | nil => exact .singleton _
        | cons root others =>
            obtain ⟨here, above⟩ := List.isChain_cons_cons.mp right
            exact List.isChain_cons_cons.mpr ⟨here, ih above⟩
  · intro first isLast second isHead
    rw [List.getLast?_reverse] at isLast
    cases older with
    | nil => cases isLast
    | cons before older =>
        cases isLast
        cases others with
        | nil => cases isHead
        | cons above others =>
            cases isHead
            exact across

end Arrivals

section Rules

variable [Weight W]

/-- Rules permit a turn unless they forbid it. To turn back on an edge is permitted if its price is
finite, whatever the rules say. -/
def TurnRule.Permits (rules : List (TurnRule W)) (uTurnCost : W) (turn : Turn) : Prop :=
  turn.source ≠ noEdge → turn.target ≠ noEdge →
    (turn.source = turn.target → Weight.isFinite uTurnCost = true) ∧
      (turn.source ≠ turn.target → TurnRule.forbids rules turn = false)

/-- An arc has a finite price only after turns that are permitted. -/
def Pricing.Warrants (pricing : Pricing W) (permitted : Turn → Prop) : Prop :=
  ∀ arc direction neighbour, Weight.isFinite (pricing.cost arc direction neighbour) = true →
    permitted (Pricing.turnAt arc direction neighbour)

variable [FiniteWeight W]

theorem Pricing.withTurns_warrants (inner : Pricing W) (rules : List (TurnRule W))
    (uTurnCost : W) :
    (inner.withTurns (.ofRules rules) uTurnCost).Warrants (TurnRule.Permits rules uTurnCost) := by
  intro arc direction neighbour finite source target
  have isTurn : neighbour ≠ noEdge := by
    cases direction with
    | forward => exact source
    | backward => exact target
  unfold withTurns at finite
  dsimp only at finite
  split at finite
  · rename_i endless
    have isInfinite : Weight.isInfinite (inner.cost arc direction neighbour) = true := by
      simpa [isTurn] using endless
    simp [Weight.isFinite, isInfinite] at finite
  · obtain ⟨_, priced⟩ := FiniteWeight.add finite
    unfold turnCost at priced
    split at priced
    · rename_i back
      exact ⟨fun _ => priced, fun onward => absurd back onward⟩
    · rename_i onward
      refine ⟨fun back => absurd back onward, fun _ => Bool.eq_false_iff.mpr fun forbidden => ?_⟩
      rw [TurnTable.cost_of_forbids forbidden source target, FiniteWeight.infinity] at priced
      cases priced

theorem Weight.Lowers.finite {old new : W} (lowers : Weight.Lowers old new)
    (finite : Weight.isFinite old = true) : Weight.isFinite new = true := by
  cases lowers with
  | same => exact finite
  | again _ less bounded => simp [Weight.isFinite, FiniteWeight.less less, bounded]

end Rules

section Trees

variable [Weight W] [FiniteWeight W] {planner : Planner W X S} {direction : Direction}
  {past : List Event} {event : Event} {search next : Search W X S} {makerState : S}
  {permitted : Turn → Prop}

/-- A state is reached at a finite weight only over an arc at a finite price. -/
theorem Planner.reachWeight_finite {label : Label W X} {arc : Arc W}
    (finite : Weight.isFinite (planner.reachWeight direction label arc) = true) :
    Weight.isFinite (planner.pricing.cost arc direction label.edge) = true ∧
      Weight.isFinite label.weight = true := by
  unfold reachWeight at finite
  split at finite
  · exact FiniteWeight.add finite
  · rw [FiniteWeight.infinity] at finite
    cases finite

/-- A label of finite weight is found again with a finite weight. -/
theorem Planner.Retains.finite {tree : SearchTree W X} {id : LabelId} {label : Label W X}
    (retains : planner.Retains tree id label) (edgeBased : planner.isEdgeBased = true)
    (isFinite : Weight.isFinite label.weight = true) :
    ∃ known, tree.label? id = some known ∧ known.node = label.node ∧ known.edge = label.edge ∧
      Weight.isFinite known.weight = true := by
  obtain ⟨known, atId, node, edge, lowers⟩ := retains
  exact ⟨known, atId, node, edge edgeBased, lowers.finite isFinite⟩

/-- A label of finite weight was reached from one of finite weight, by a permitted turn. -/
def SearchTree.TurnsBy (permitted : Turn → Prop) (direction : Direction)
    (tree : SearchTree W X) : Prop :=
  ∀ id label parent, tree.label? id = some label → label.parent = some parent →
    Weight.isFinite label.weight = true → ∃ above, tree.label? parent = some above ∧
      Weight.isFinite above.weight = true ∧ permitted (direction.turn above label)

omit [FiniteWeight W] in
/-- The chain of parents from a label of finite weight turns as permitted. -/
theorem SearchTree.TurnsBy.lineage {tree : SearchTree W X}
    (turns : tree.TurnsBy permitted direction) {id : LabelId} {label : Label W X}
    {line : List (Label W X)} (atId : tree.label? id = some label)
    (finite : Weight.isFinite label.weight = true) (chain : tree.Chain id line) :
    ∃ older, line = label :: older ∧
      line.IsChain fun label above => permitted (direction.turn above label) := by
  induction chain generalizing label with
  | root atRoot _ =>
      cases atId.symm.trans atRoot
      exact ⟨[], rfl, .singleton _⟩
  | step atStep isParent _ ih =>
      cases atId.symm.trans atStep
      obtain ⟨above, atParent, aboveFinite, turn⟩ := turns _ _ _ atId isParent finite
      obtain ⟨older, rfl, along⟩ := ih atParent aboveFinite
      exact ⟨above :: older, rfl, List.isChain_cons_cons.mpr ⟨turn, along⟩⟩

/-- Every event leaves the turns of a tree permitted. -/
theorem Coherent.turnsBy (coherent : Coherent planner past search)
    (network : planner.network.Lawful) (maker : planner.maker.Lawful)
    (edgeBased : planner.isEdgeBased = true) (warrants : planner.pricing.Warrants permitted)
    (turns : (search.tree direction).TurnsBy permitted direction)
    (fires : planner.Fires search event next) :
    (next.tree direction).TurnsBy permitted direction := by
  have persists := coherent.persists network maker fires direction
  intro id label parent atId isParent finite
  cases coherent.alters network maker fires direction with
  | kept lookups labels =>
      rw [labels] at atId
      rw [labels]
      exact turns _ _ _ atId isParent finite
  | @written origin written before made arc looks writes edge weight isAbove far =>
      rcases writes.label?_cases atId with ⟨rfl, rfl⟩ | ⟨_, held⟩
      · rw [isParent, Option.some.injEq] at isAbove
        subst isAbove
        rw [weight] at finite
        obtain ⟨priced, beforeFinite⟩ := planner.reachWeight_finite finite
        obtain ⟨above, atParent, node, sameEdge, aboveFinite⟩ :=
          (looks.retained.trans persists.label?).finite edgeBased beforeFinite
        refine ⟨above, atParent, aboveFinite, ?_⟩
        have near := network.near_eq looks.listed
        have isTurn : direction.turn above label =
            Pricing.turnAt arc direction before.edge := by
          cases direction <;> simp [Direction.turn, Pricing.turnAt, node, sameEdge, edge, near]
        rw [isTurn]
        exact warrants arc direction before.edge priced
      · obtain ⟨older, atOlder, olderFinite, turn⟩ := turns _ _ _ held isParent finite
        obtain ⟨above, atParent, node, sameEdge, aboveFinite⟩ :=
          (persists.label? atOlder).finite edgeBased olderFinite
        have isTurn : direction.turn above label = direction.turn older label := by
          cases direction <;> simp [Direction.turn, node, sameEdge]
        exact ⟨above, atParent, aboveFinite, isTurn ▸ turn⟩
  | planted blank roots =>
      rw [roots atId] at isParent
      cases isParent

/-- The best meeting is that of both roots, or it joins labels of finite weight by a permitted
turn if its own weight is finite. -/
def Search.TurnsAcross (permitted : Turn → Prop) (search : Search W X S) : Prop :=
  ∀ meeting, search.best = some meeting → Weight.isFinite meeting.weight = true →
    meeting.ends = .both 0 ∨ ∃ label opposite,
      (search.tree .forward).label? meeting.ends.forward = some label ∧
      (search.tree .backward).label? meeting.ends.backward = some opposite ∧
      Weight.isFinite label.weight = true ∧ Weight.isFinite opposite.weight = true ∧
      permitted ⟨label.edge, label.node, opposite.edge⟩

/-- A new best meeting joins its labels by the turn that one of the trees was grown by. -/
theorem Coherent.meet_turnsAcross (coherent : Coherent planner past search)
    (network : planner.network.Lawful) (kind : planner.settings.stateKind = .edgeBased)
    (turns : ∀ side, (search.tree side).TurnsBy permitted side)
    (across : search.TurnsAcross permitted) {node : NodeId} {arc : Arc W}
    (listed : arc ∈ planner.network.arcs node) {id : LabelId}
    (indexed : (search.tree direction).lookup?
      (planner.settings.stateKind.key arc direction) = some id) :
    (planner.meet direction arc id search).TurnsAcross permitted := by
  obtain ⟨best, meetings, met⟩ := planner.meet_eq direction arc id search
  have trees : (planner.meet direction arc id search).trees = search.trees := by rw [met]
  intro meeting isMeeting finite
  simp only [Search.tree, trees]
  rcases planner.meet_proposes direction arc id search with
    same | ⟨here, there, label, opposite, weight, foundThere, atId, atThere, isBest, kinds⟩
  · exact across meeting (same ▸ isMeeting) finite
  rw [isBest, Option.some.injEq] at isMeeting
  subst isMeeting
  rcases kinds with ⟨nodeBased, _⟩ | ⟨_, isParent, rfl⟩
  · rw [kind] at nodeBased
    cases nodeBased
  obtain ⟨labelFinite, oppositeFinite⟩ := FiniteWeight.add (FiniteWeight.sub finite)
  obtain ⟨above, atParent, aboveFinite, turn⟩ := turns direction _ _ _ atId isParent labelFinite
  -- The other tree came to the state from the far end of the arc.
  obtain ⟨edge, _, parent, before, isBefore, atBefore, near⟩ :=
    (coherent.trees direction).over_arc network kind listed indexed atId
  rw [isParent, Option.some.injEq] at isBefore
  subst isBefore
  obtain rfl := Option.some.inj (atParent.symm.trans atBefore)
  obtain ⟨edgeThere, nodeThere⟩ := (coherent.trees direction.opposite).behind_arc network kind
    listed foundThere atThere
  refine .inr ?_
  cases direction with
  | forward =>
      refine ⟨above, opposite, atParent, atThere, aboveFinite, oppositeFinite, ?_⟩
      rw [edgeThere.trans edge.symm]
      exact turn
  | backward =>
      refine ⟨opposite, above, atThere, atParent, oppositeFinite, aboveFinite, ?_⟩
      rw [edgeThere.trans edge.symm, nodeThere.trans near.symm]
      exact turn

/-- Every event leaves the turn at the best meeting permitted. -/
theorem Coherent.turnsAcross (coherent : Coherent planner past search)
    (network : planner.network.Lawful) (maker : planner.maker.Lawful)
    (kind : planner.settings.stateKind = .edgeBased)
    (turns : ∀ side, (search.tree side).TurnsBy permitted side)
    (across : search.TurnsAcross permitted) (fires : planner.Fires search event next) :
    next.TurnsAcross permitted := by
  have edgeBased := planner.isEdgeBased_eq_true.mpr kind
  have kept (best : next.best = search.best) : next.TurnsAcross permitted := by
    intro meeting isMeeting finite
    refine (across meeting (best ▸ isMeeting) finite).imp_right ?_
    rintro ⟨label, opposite, atHere, atThere, labelFinite, oppositeFinite, turn⟩
    have persists := coherent.persists network maker fires
    obtain ⟨later, atLater, node, edge, laterFinite⟩ :=
      ((persists .forward).label? atHere).finite edgeBased labelFinite
    obtain ⟨laterThere, atLaterThere, _, edgeThere, laterThereFinite⟩ :=
      ((persists .backward).label? atThere).finite edgeBased oppositeFinite
    refine ⟨later, laterThere, atLater, atLaterThere, laterFinite, laterThereFinite, ?_⟩
    rw [node, edge, edgeThere]
    exact turn
  cases fires with
  | @plant source target sourceWeight targetWeight now accepted =>
      have blank := coherent.blank (planner.unseeded_of_check accepted)
      intro meeting isMeeting _
      have best := blank.planted_best planner source sourceWeight target targetWeight now
      rw [isMeeting, kind] at best
      dsimp only at best
      split at best
      · split at best
        · cases best
        · cases best
          exact .inl rfl
      · cases best
  | pop popped => exact kept rfl
  | insert looks unknown recorded => exact kept (planner.record_best recorded)
  | improve looks known recorded => exact kept (planner.record_best recorded)
  | meet tracks listed indexed =>
      exact coherent.meet_turnsAcross network kind turns across listed indexed
  | finish direction => exact kept rfl
  | aside trees best seeded => exact kept best

/-- The turns that a search has made so far are permitted at every moment. -/
theorem Planner.Chronicle.turns (network : planner.network.Lawful)
    (maker : planner.maker.Lawful) (kind : planner.settings.stateKind = .edgeBased)
    (warrants : planner.pricing.Warrants permitted)
    (chronicle : planner.Chronicle (.fresh makerState) past search) :
    (∀ side, (search.tree side).TurnsBy permitted side) ∧ search.TurnsAcross permitted := by
  induction chronicle with
  | start =>
      refine ⟨fun side => ?_, nofun⟩
      intro id label parent atId
      cases side <;> cases atId
  | next before fires ih =>
      obtain ⟨turns, across⟩ := ih
      have coherent := before.coherent network maker
      have edgeBased := planner.isEdgeBased_eq_true.mpr kind
      exact ⟨fun side => coherent.turnsBy network maker edgeBased warrants (turns side) fires,
        coherent.turnsAcross network maker kind turns across fires⟩

end Trees

section Chains

variable {planner : Planner W X S} {direction : Direction} {past : List Event}
  {tree : SearchTree W X} {line : List (Label W X)}

/-- An edge-based root is never come back to. -/
theorem Consistent.chain_root (consistent : Consistent planner direction past tree)
    (edgeBased : planner.isEdgeBased = true) (chain : tree.Chain 0 line) :
    ∃ root, line = [root] := by
  cases chain with
  | root _ _ => exact ⟨_, rfl⟩
  | step atRoot isParent _ =>
      obtain ⟨_, _, _, _, _, _, found⟩ := consistent.reached atRoot isParent
      obtain ⟨_, notRoot⟩ := (consistent.indexed 0).mp ⟨_, found⟩
      exact absurd rfl (notRoot edgeBased)

/-- The labels before the end of a chain came over edges of the network. -/
theorem Consistent.chain_edges (consistent : Consistent planner direction past tree)
    {id : LabelId} (chain : tree.Chain id line) :
    ∀ label ∈ line.dropLast, ∃ node, ∃ arc ∈ planner.network.arcs node, arc.edge = label.edge := by
  induction chain with
  | root _ _ => nofun
  | @step id parent label line atId isParent rest ih =>
      have isLine : line ≠ [] := by
        rintro rfl
        cases rest
      rw [List.dropLast_cons_of_ne_nil isLine]
      intro other member
      rcases List.mem_cons.mp member with rfl | later
      · obtain ⟨_, _, arc, listed, edge, _⟩ := consistent.reached atId isParent
        exact ⟨_, arc, listed, edge.symm⟩
      · exact ih other later

end Chains

section Answers

variable [Weight W] {planner : Planner W X S} {past : List Event} {search : Search W X S}
  {makerState : S} {route : Route W} {permitted : Turn → Prop}

/-- A route is spliced from the chains of the best meeting. -/
theorem Planner.result_chains (answer : planner.result search = .ok (some route)) :
    ∃ meeting forward backward, search.best = some meeting ∧
      Weight.isFinite meeting.weight = true ∧
      (search.tree .forward).Chain meeting.ends.forward forward ∧
      (search.tree .backward).Chain meeting.ends.backward backward ∧
      route = .splice planner.network meeting.weight forward backward := by
  obtain ⟨meeting, isBest, finite, read⟩ := planner.result_eq_some answer
  obtain ⟨forward, left, rest⟩ := Option.bind_eq_some_iff.mp read
  obtain ⟨backward, right, isRoute⟩ := Option.bind_eq_some_iff.mp rest
  cases isRoute
  exact ⟨meeting, forward, backward, isBest, finite, SearchTree.chain_of_lineageWithin left,
    SearchTree.chain_of_lineageWithin right, rfl⟩

/-- A route runs over edges of the network. -/
theorem Planner.Chronicle.route_edges (network : planner.network.Lawful)
    (maker : planner.maker.Lawful) (chronicle : planner.Chronicle (.fresh makerState) past search)
    (answer : planner.result search = .ok (some route)) :
    ∀ edge ∈ route.edges, ∃ node, ∃ arc ∈ planner.network.arcs node, arc.edge = edge := by
  have coherent := chronicle.coherent network maker
  obtain ⟨meeting, forward, backward, _, _, left, right, rfl⟩ := planner.result_chains answer
  intro edge member
  simp only [Route.splice, List.map_append, List.map_reverse, Route.hops_edges, List.mem_append,
    List.mem_reverse] at member
  rcases member with before | after
  · obtain ⟨label, inside, rfl⟩ := List.mem_map.mp before
    exact (coherent.trees .forward).chain_edges left label inside
  · obtain ⟨label, inside, rfl⟩ := List.mem_map.mp after
    exact (coherent.trees .backward).chain_edges right label inside

/-- Between two edges of a route lies a node, and the turn from one to the other is permitted. -/
theorem Planner.Chronicle.route_turns [FiniteWeight W] (network : planner.network.Lawful)
    (maker : planner.maker.Lawful) (kind : planner.settings.stateKind = .edgeBased)
    (warrants : planner.pricing.Warrants permitted)
    (chronicle : planner.Chronicle (.fresh makerState) past search)
    (answer : planner.result search = .ok (some route)) {place : Nat} {before after : EdgeId}
    (first : route.edges[place]? = some before) (second : route.edges[place + 1]? = some after) :
    ∃ via, route.nodes[place + 1]? = some via ∧ permitted ⟨before, via, after⟩ := by
  have coherent := chronicle.coherent network maker
  obtain ⟨turns, across⟩ := chronicle.turns network maker kind warrants
  obtain ⟨meeting, forward, backward, isBest, finite, left, right, rfl⟩ :=
    planner.result_chains answer
  have isLine : forward ≠ [] := by
    rintro rfl
    cases left
  obtain ⟨edges, nodes⟩ := Route.splice_arrivals planner.network meeting.weight isLine
  rw [← List.getElem?_tail, nodes, List.getElem?_map]
  rw [edges, List.getElem?_map] at first second
  rcases across meeting isBest finite with
    roots | ⟨label, opposite, atHere, atThere, labelFinite, oppositeFinite, turn⟩
  · have edgeBased := planner.isEdgeBased_eq_true.mpr kind
    rw [roots] at left right
    obtain ⟨root, rfl⟩ := (coherent.trees .forward).chain_root edgeBased left
    obtain ⟨rootThere, rfl⟩ := (coherent.trees .backward).chain_root edgeBased right
    cases first
  · obtain ⟨older, rfl, along⟩ := (turns .forward).lineage atHere labelFinite left
    obtain ⟨others, rfl, alongThere⟩ := (turns .backward).lineage atThere oppositeFinite right
    have permits := List.isChain_iff_getElem.mp (Route.arrivals_permitted along alongThere turn)
    obtain ⟨arrival, atPlace, rfl⟩ := Option.map_eq_some_iff.mp first
    obtain ⟨next, atNext, rfl⟩ := Option.map_eq_some_iff.mp second
    obtain ⟨_, isArrival⟩ := List.getElem?_eq_some_iff.mp atPlace
    obtain ⟨inside, isNext⟩ := List.getElem?_eq_some_iff.mp atNext
    refine ⟨arrival.2, by rw [atPlace]; rfl, ?_⟩
    have permit := permits place inside
    rwa [isArrival, isNext] at permit

/-- Whatever is called in an edge-based search that prices turns by rules, a route turns back on an
edge only if that has a finite price, and makes no other turn that the rules forbid. -/
theorem route_avoids_forbidden [FiniteWeight W] (list : EdgeList W)
    (network : planner.network = list.pack.network) (few : list.edges.size ≤ noEdge)
    (maker : planner.maker.Lawful) (edgeBased : planner.settings.stateKind = .edgeBased)
    (inner : Pricing W) (rules : List (TurnRule W)) (uTurnCost : W)
    (pricing : planner.pricing = inner.withTurns (.ofRules rules) uTurnCost) (clock : Clock)
    (calls : List (Call W)) (makerState : S)
    (answered : .route (some route) ∈
      (planner.performAll clock calls (.fresh makerState)).1) :
    ∀ place before after, route.edges[place]? = some before →
      route.edges[place + 1]? = some after → ∃ via, route.nodes[place + 1]? = some via ∧
        (before = after → Weight.isFinite uTurnCost = true) ∧
        (before ≠ after → TurnRule.forbids rules ⟨before, via, after⟩ = false) := by
  intro place before after first second
  have lawful : planner.network.Lawful := network ▸ list.lawful_pack
  have warrants : planner.pricing.Warrants (TurnRule.Permits rules uTurnCost) :=
    pricing ▸ inner.withTurns_warrants rules uTurnCost
  obtain ⟨events, moment, chronicle, answer⟩ :=
    Planner.Chronicle.answers lawful maker .start clock calls answered
  have named {edge : EdgeId} {place : Nat} (atPlace : route.edges[place]? = some edge) :
      edge ≠ noEdge := by
    obtain ⟨node, arc, listed, rfl⟩ :=
      chronicle.route_edges lawful maker answer edge (List.mem_of_getElem? atPlace)
    rw [network] at listed
    exact EdgeList.named_pack few listed
  obtain ⟨via, atVia, permits⟩ :=
    chronicle.route_turns lawful maker edgeBased warrants answer first second
  exact ⟨via, atVia, permits (named first) (named second)⟩

/-- At the end of the first street one may not turn back, and further on one has to follow the
second street. -/
def CostModel.noTurningBack : CostModel Exact :=
  .turns .shortest [.ban ⟨0, 0, 0⟩, .only ⟨0, 1, 1⟩] (.finite 10)

/-- A planner over the two streets with rules for turns. -/
def Planner.overRuledStreets : Planner Exact Unit Unit where
  network := EdgeList.streets.pack.network
  pricing := CostModel.noTurningBack.pricing
  settings := { stateKind := .edgeBased }
  maker := .plain

/-- The route from the middle out of the first street and back through both. -/
def Route.outAndBack : Route Exact where
  weight := .finite 260
  length := .finite 250
  nodes := [1, 0, 1, 2]
  edges := [0, 0, 1]

theorem Planner.overRuledStreets_route :
    (Planner.overRuledStreets.performAll (fun _ => 0) [.route 1 (some 0) 2 none] (.fresh ())).1 =
      [.route (some .outAndBack)] := by
  cbv

theorem route_avoids_forbidden_streets :
    Answer.route (some Route.outAndBack) ∈ (Planner.overRuledStreets.performAll (fun _ => 0)
      [.route 1 (some 0) 2 none] (.fresh ())).1 ∧
    ∀ place before after, Route.outAndBack.edges[place]? = some before →
      Route.outAndBack.edges[place + 1]? = some after →
        ∃ via, Route.outAndBack.nodes[place + 1]? = some via ∧
          (before = after → Weight.isFinite (Exact.finite 10) = true) ∧
          (before ≠ after → TurnRule.forbids (W := Exact) [.ban ⟨0, 0, 0⟩, .only ⟨0, 1, 1⟩]
            ⟨before, via, after⟩ = false) := by
  have answered : Answer.route (some Route.outAndBack) ∈
      (Planner.overRuledStreets.performAll (fun _ => 0) [.route 1 (some 0) 2 none] (.fresh ())).1 :=
    Planner.overRuledStreets_route ▸ List.mem_singleton_self _
  exact ⟨answered, route_avoids_forbidden EdgeList.streets rfl (by decide) LabelMaker.plain_lawful
    rfl .shortest _ (.finite 10) rfl _ _ () answered⟩

/-- The route turns back where the rules ban it, because turning back has a price. -/
theorem route_turns_back_streets :
    CostModel.noTurningBack.NonNegative EdgeList.streets.pack.network ∧
      Planner.overRuledStreets.pricing = CostModel.noTurningBack.pricing ∧ ∃ route,
      Answer.route (some route) ∈ (Planner.overRuledStreets.performAll (fun _ => 0)
        [.route 1 (some 0) 2 none] (.fresh ())).1 ∧
      ¬ ∀ place before after via, route.edges[place]? = some before →
        route.edges[place + 1]? = some after → route.nodes[place + 1]? = some via →
          TurnRule.forbids (W := Exact) [.ban ⟨0, 0, 0⟩, .only ⟨0, 1, 1⟩] ⟨before, via, after⟩ =
            false := by
  refine ⟨⟨trivial, fun turn cost member => ?_, by decide⟩, rfl, .outAndBack,
    Planner.overRuledStreets_route ▸ List.mem_singleton_self _, fun never => ?_⟩
  · simp at member
  · cases never 0 0 0 0 rfl rfl rfl

end Answers

end RouteSearch
