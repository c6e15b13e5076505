/-
This file proves what a query is answered with: the route along a walk of least cost.
-/

import RouteSearch.Proofs.Lineage
import RouteSearch.Proofs.Optimality
import RouteSearch.Proofs.Termination
import Mathlib

namespace RouteSearch

variable {X S : Type} {planner : Planner Exact X S} {query : Query} {search : Search Exact X S}
  {list : EdgeList Exact}

/-- A planner over a stored network. With states that are edges it may use any cost model
without negative prices; with states that are nodes it needs a pricing without turns. -/
structure Planner.Serves (planner : Planner Exact X S) (list : EdgeList Exact) : Prop where
  network : planner.network = list.pack.network
  maker : planner.maker.Lawful
  edgeBased : planner.settings.stateKind = .edgeBased → ∃ model : CostModel Exact,
    planner.pricing = model.pricing ∧ model.NonNegative list.pack.network
  nodeBased : planner.settings.stateKind = .nodeBased →
    planner.pricing.Flat list.pack.network

/-- A planner with states that are edges serves a stored network at the prices of a model. -/
theorem CostModel.NonNegative.serves_edges {model : CostModel Exact}
    (nonNegative : model.NonNegative list.pack.network)
    (network : planner.network = list.pack.network) (pricing : planner.pricing = model.pricing)
    (maker : planner.maker.Lawful) (edgeBased : planner.settings.stateKind = .edgeBased) :
    planner.Serves list where
  network := network
  maker := maker
  edgeBased _ := ⟨model, pricing, nonNegative⟩
  nodeBased nodeBased := by
    rw [edgeBased] at nodeBased
    cases nodeBased

/-- A planner with states that are nodes serves a stored network at prices without turns. -/
theorem CostModel.NonNegative.serves_nodes {model : CostModel Exact}
    (nonNegative : model.NonNegative list.pack.network)
    (network : planner.network = list.pack.network) (pricing : planner.pricing = model.pricing)
    (maker : planner.maker.Lawful) (nodeBased : planner.settings.stateKind = .nodeBased)
    (simple : model = .shortest ∨ ∃ maxSpeed, model = .fastest maxSpeed) :
    planner.Serves list where
  network := network
  maker := maker
  edgeBased edgeBased := by
    rw [nodeBased] at edgeBased
    cases edgeBased
  nodeBased _ := pricing ▸ model.flat nonNegative list.lawful_pack list.length_isPrice simple

theorem Planner.Serves.lawful (serves : planner.Serves list) : planner.Lawful where
  network := serves.network ▸ list.lawful_pack
  pricing := by
    rw [serves.network]
    cases kind : planner.settings.stateKind with
    | nodeBased => exact (serves.nodeBased kind).fair
    | edgeBased =>
        obtain ⟨model, isModel, proper⟩ := serves.edgeBased kind
        rw [isModel]
        exact CostModel.fair proper list.lawful_pack list.length_isPrice
  maker := serves.maker

theorem Planner.Serves.measures (serves : planner.Serves list)
    (unoriented : ArcFilter.Unoriented planner.network query.filter) :
    planner.Measures query where
  toLawful := serves.lawful
  turnFree kind := (serves.nodeBased kind).turnFree
  plain := serves.network ▸ list.plain_pack
  unoriented := unoriented

theorem Planner.Serves.prices (serves : planner.Serves list)
    (unoriented : ArcFilter.Unoriented planner.network query.filter)
    (weights : query.weights = .both 0) : planner.Prices query where
  toMeasures := serves.measures unoriented
  weights := weights

/-- A finished search answers with the route along the walk of its best meeting, as long as the
meeting and the labels at its ends stay. -/
theorem Started.result_route (measures : planner.Measures query)
    (started : Started planner query search) {meeting : Meeting Exact}
    (best : search.best = some meeting) :
    ∃ before rest route, Carries planner query search meeting before rest ∧
      route.Follows query.ends.forward (before.reverse ++ rest) ∧
      route.weight = meeting.weight ∧ ∀ after, search.Extends after → after.finished = true →
        after.best = some meeting →
        (∀ side, (after.tree side).label? (meeting.ends.get side) =
          (search.tree side).label? (meeting.ends.get side)) →
        planner.result after = .ok (some route) := by
  obtain ⟨before, rest, carries⟩ := started.carries measures best
  obtain ⟨route, follows, sameWeight, read⟩ := carries.route measures.network
  refine ⟨before, rest, route, carries, follows, sameWeight,
    fun after extends_ finished sameBest labels => ?_⟩
  obtain ⟨value, isValue⟩ := started.underway.met.proper meeting best
  unfold Planner.result
  rw [finished, sameBest]
  dsimp only
  rw [if_pos (by rw [isValue, Exact.isFinite_finite]), read after extends_ labels]

/-- A search answers with a route once it has finished and its trees have met. -/
theorem Started.result_cases (prices : planner.Prices query)
    (started : Started planner query search) :
    (search.finished = false ∨ search.best = none) ∧ planner.result search = .ok none ∨
    search.finished = true ∧ ∃ meeting before rest route, search.best = some meeting ∧
      Carries planner query search meeting before rest ∧
      route.Follows query.ends.forward (before.reverse ++ rest) ∧ route.weight = meeting.weight ∧
      planner.result search = .ok (some route) := by
  cases finished : search.finished with
  | false =>
      refine .inl ⟨.inl rfl, ?_⟩
      unfold Planner.result
      rw [finished]
  | true =>
      cases best : search.best with
      | none =>
          refine .inl ⟨.inr rfl, ?_⟩
          unfold Planner.result
          rw [finished, best]
      | some meeting =>
          obtain ⟨before, rest, route, carries, follows, sameWeight, read⟩ :=
            started.result_route prices.toMeasures best
          exact .inr ⟨rfl, meeting, before, rest, route, rfl, carries, follows, sameWeight,
            read search (.refl search) finished best fun _ => rfl⟩

/-- A finished search answers with a route that weighs what its best meeting does, unless that is
infinite. -/
theorem Started.result_finished (measures : planner.Measures query)
    (started : Started planner query search) (finished : search.finished = true) :
    ∃ found, planner.result search = .ok found ∧
      (found.isSome = true ↔ Weight.isFinite search.bestWeight = true) ∧
      ∀ route, found = some route → route.weight = search.bestWeight := by
  cases best : search.best with
  | none =>
      refine ⟨none, ?_, ?_, fun route isRoute => by cases isRoute⟩
      · unfold Planner.result
        rw [finished, best]
      · rw [Search.bestWeight, best]
        exact iff_of_false Bool.false_ne_true Bool.false_ne_true
  | some meeting =>
      obtain ⟨_, _, route, _, _, sameWeight, read⟩ := started.result_route measures best
      obtain ⟨value, isValue⟩ := started.underway.met.proper meeting best
      refine ⟨some route, read search (.refl search) finished best fun _ => rfl, ?_,
        fun other isRoute => ?_⟩
      · rw [Search.bestWeight_of_best best, isValue]
        exact iff_of_true rfl (Exact.isFinite_finite value)
      · cases isRoute
        rw [sameWeight, Search.bestWeight_of_best best]

/-- A search on which nothing was done but to set its filter and its pins. -/
structure Search.IsUnused (search : Search Exact X S) : Prop where
  trees : search.trees = .both {}
  best : search.best = none
  seeded : search.seeded = false

theorem Search.fresh_isUnused (makerState : S) (filter : Option (ArcFilter Exact)) :
    ((Search.fresh makerState : Search Exact X S).withFilter filter).IsUnused :=
  ⟨rfl, rfl, rfl⟩

/-- A query between two nodes, which starts with nothing. -/
def Query.between (source target : NodeId) (pins : Sides (Option EdgeId))
    (filter : Option (ArcFilter Exact)) : Query where
  ends := ⟨source, target⟩
  weights := .both 0
  pins := pins
  filter := filter

/-- A start that is let through starts a search, with the weights that it gives to the roots. -/
theorem Search.IsUnused.startWeighted (unused : search.IsUnused) (lawful : planner.Lawful)
    {source target : NodeId} {weights : Sides Rat} (nonneg : ∀ side, 0 ≤ weights.get side)
    {now : Nat} {begun : Search Exact X S}
    (accepted : planner.start source (.finite weights.forward) target (.finite weights.backward)
      now search = .ok begun) :
    Started planner ⟨⟨source, target⟩, weights, search.pins, search.filter⟩ begun := by
  obtain ⟨rfl, checked⟩ := planner.start_eq_ok accepted
  have begins : Unused ⟨⟨source, target⟩, weights, search.pins, search.filter⟩ search :=
    ⟨unused.trees, unused.best, rfl, rfl⟩
  exact begins.seed lawful nonneg (planner.suited_of_check checked) now

/-- A start that is let through starts a search. -/
theorem Search.IsUnused.start (unused : search.IsUnused) (lawful : planner.Lawful)
    {source target : NodeId} {now : Nat} {after : Search Exact X S}
    (accepted : planner.start source Weight.zero target Weight.zero now search = .ok after) :
    Started planner (.between source target search.pins search.filter) after := by
  have noWeight (side : Direction) : 0 ≤ (Sides.both (0 : Rat)).get side := by
    rw [Sides.get_both]
  exact unused.startWeighted lawful noWeight accepted

/-- A query is refused, or answered from the run of a started search. -/
theorem Planner.route_cases (lawful : planner.Lawful) (unused : search.IsUnused)
    (source target : NodeId) (sourceEdge targetEdge : Option EdgeId) (clock : Clock) :
    (∃ fault, planner.check { search with pins := ⟨sourceEdge, targetEdge⟩ } source target =
        .error fault ∧
      (planner.route source sourceEdge target targetEdge clock search).1 = .error fault) ∨
    planner.check { search with pins := ⟨sourceEdge, targetEdge⟩ } source target = .ok () ∧
      ∃ begun later,
        Started planner (.between source target ⟨sourceEdge, targetEdge⟩ search.filter) begun ∧
        (planner.route source sourceEdge target targetEdge clock search).1 =
          planner.result (planner.run later begun) := by
  have pinned : Search.IsUnused { search with pins := ⟨sourceEdge, targetEdge⟩ } :=
    ⟨unused.trees, unused.best, unused.seeded⟩
  unfold Planner.route
  rw [if_neg (by simp [unused.seeded])]
  dsimp only
  cases accepted : planner.start source Weight.zero target Weight.zero (clock 0)
      { search with pins := ⟨sourceEdge, targetEdge⟩ } with
  | error fault =>
      refine .inl ⟨fault, ?_, rfl⟩
      unfold Planner.start at accepted
      cases checked : planner.check { search with pins := ⟨sourceEdge, targetEdge⟩ } source
          target with
      | error other =>
          rw [checked] at accepted
          cases accepted
          rfl
      | ok =>
          rw [checked] at accepted
          cases accepted
  | ok begun =>
      exact .inr ⟨(planner.start_eq_ok accepted).2, begun, _, pinned.start lawful accepted, rfl⟩

theorem Planner.Serves.named (serves : planner.Serves list)
    (few : planner.settings.stateKind = .nodeBased → list.edges.size ≤ noEdge) :
    planner.settings.stateKind = .nodeBased →
      ∀ node, ∀ arc ∈ planner.network.arcs node, arc.edge ≠ noEdge := by
  intro nodeBased node
  rw [serves.network]
  exact fun arc member => EdgeList.named_pack (few nodeBased) member

/-- A query that is let through is answered with the least cost. -/
theorem Planner.Serves.answer (serves : planner.Serves list)
    (few : planner.settings.stateKind = .nodeBased → list.edges.size ≤ noEdge)
    (tracks : planner.settings.tracksMeeting = true)
    (noVisits : planner.settings.maxVisited = none) (noTime : planner.settings.timeoutMs = none)
    (unused : search.IsUnused)
    (unoriented : ArcFilter.Unoriented list.pack.network search.filter)
    {source target : NodeId} {sourceEdge targetEdge : Option EdgeId}
    (accepted : planner.check { search with pins := ⟨sourceEdge, targetEdge⟩ } source target =
      .ok ()) (clock : Clock) :
    ∃ found, (planner.route source sourceEdge target targetEdge clock search).1 = .ok found ∧
      (found.isSome = true ↔ ∃ walk,
        Walk.Admissible list.pack.network search.filter ⟨sourceEdge, targetEdge⟩ source target
          walk ∧ Weight.isFinite (Walk.cost planner.pricing noEdge walk) = true) ∧
      ∀ route, found = some route → Weight.isFinite route.weight = true ∧
        Walk.IsLeastCost list.pack.network planner.pricing search.filter
          ⟨sourceEdge, targetEdge⟩ source target route.weight := by
  have prices : planner.Prices (.between source target ⟨sourceEdge, targetEdge⟩ search.filter) :=
    serves.prices (serves.network ▸ unoriented) rfl
  rcases planner.route_cases prices.toLawful unused source target sourceEdge targetEdge clock with
    ⟨fault, refused, _⟩ | ⟨_, begun, later, started, answer⟩
  · rw [accepted] at refused
    cases refused
  obtain ⟨run, _⟩ := started.run prices.toLawful later
  have finished := started.run_finished prices.toLawful noVisits noTime later
  have least := run.leastCost prices (serves.named few) tracks finished
  rw [serves.network] at least
  have reaches := least.isFinite_iff run.underway.met.proper.bestWeight
  obtain ⟨found, isFound, isSome, weighs⟩ := run.result_finished prices.toMeasures finished
  rw [answer]
  refine ⟨found, isFound, isSome.trans reaches, fun route isRoute => ?_⟩
  rw [weighs route isRoute]
  refine ⟨isSome.mp ?_, least⟩
  rw [isRoute]
  rfl

/-- An edge-based query that is let through is answered with a route if and only if some
admissible walk has a finite cost. The route then weighs the least such cost. -/
theorem edgeBased_route_leastCost {model : CostModel Exact}
    (network : planner.network = list.pack.network) (pricing : planner.pricing = model.pricing)
    (maker : planner.maker.Lawful) (edgeBased : planner.settings.stateKind = .edgeBased)
    (tracks : planner.settings.tracksMeeting = true)
    (noVisits : planner.settings.maxVisited = none) (noTime : planner.settings.timeoutMs = none)
    (nonNegative : model.NonNegative list.pack.network) (unused : search.IsUnused)
    (unoriented : ArcFilter.Unoriented list.pack.network search.filter)
    {source target : NodeId} {sourceEdge targetEdge : Option EdgeId}
    (accepted : planner.check { search with pins := ⟨sourceEdge, targetEdge⟩ } source target =
      .ok ()) (clock : Clock) :
    ∃ found, (planner.route source sourceEdge target targetEdge clock search).1 = .ok found ∧
      (found.isSome = true ↔ ∃ walk,
        Walk.Admissible list.pack.network search.filter ⟨sourceEdge, targetEdge⟩ source target
          walk ∧ Weight.isFinite (Walk.cost model.pricing noEdge walk) = true) ∧
      ∀ route, found = some route → Weight.isFinite route.weight = true ∧
        Walk.IsLeastCost list.pack.network model.pricing search.filter
          ⟨sourceEdge, targetEdge⟩ source target route.weight := by
  have serves := nonNegative.serves_edges network pricing maker edgeBased
  rw [← pricing]
  refine serves.answer (fun nodeBased => ?_) tracks noVisits noTime unused unoriented accepted
    clock
  rw [edgeBased] at nodeBased
  cases nodeBased

/-- Two streets in a row. -/
def EdgeList.streets : EdgeList Exact where
  nodeCount := 3
  edges := #[.twoWay 0 1 (.finite 100), .twoWay 1 2 (.finite 50)]
  fits := by
    intro record member
    rcases List.mem_cons.mp (Array.mem_toList_iff.mpr member) with rfl | later
    · exact ⟨by decide, by decide, by decide⟩
    · rw [List.mem_singleton.mp later]
      exact ⟨by decide, by decide, by decide⟩

/-- The turn from the first street into the second has a price. -/
def CostModel.slowTurn : CostModel Exact :=
  .turns .shortest [.penalty ⟨0, 1, 1⟩ (.finite 7)] (.finite 5)

/-- A planner over the two streets, which knows its states by their edges. -/
def Planner.overStreets : Planner Exact Unit Unit where
  network := EdgeList.streets.pack.network
  pricing := CostModel.slowTurn.pricing
  settings := { stateKind := .edgeBased }
  maker := .plain

theorem CostModel.slowTurn_nonNegative :
    CostModel.slowTurn.NonNegative EdgeList.streets.pack.network := by
  refine ⟨trivial, fun turn cost member => ?_, by decide⟩
  cases List.mem_singleton.mp member
  decide

theorem Planner.overStreets_serves : Planner.overStreets.Serves EdgeList.streets :=
  CostModel.slowTurn_nonNegative.serves_edges rfl rfl LabelMaker.plain_lawful rfl

theorem edgeBased_route_leastCost_streets :
    ∃ found, (Planner.overStreets.route 0 (some 0) 2 (some 1) (fun _ => 0) (.fresh ())).1 =
        .ok found ∧
      (found.isSome = true ↔ ∃ walk,
        Walk.Admissible EdgeList.streets.pack.network none ⟨some 0, some 1⟩ 0 2 walk ∧
          Weight.isFinite (Walk.cost CostModel.slowTurn.pricing noEdge walk) = true) ∧
      ∀ route, found = some route → Weight.isFinite route.weight = true ∧
        Walk.IsLeastCost EdgeList.streets.pack.network CostModel.slowTurn.pricing none
          ⟨some 0, some 1⟩ 0 2 route.weight :=
  edgeBased_route_leastCost rfl rfl LabelMaker.plain_lawful rfl rfl rfl rfl
    CostModel.slowTurn_nonNegative (Search.fresh_isUnused () none) (fun _ _ _ => rfl) (by rfl) _

/-- A node-based query between nodes of the network is let through. -/
theorem Planner.check_eq_ok (noVisits : planner.settings.maxVisited = none)
    (noTime : planner.settings.timeoutMs = none) (seeded : search.seeded = false)
    (unpinned : search.pins = .both none) {source target : NodeId}
    (sourceInside : source < planner.network.nodeCount)
    (targetInside : target < planner.network.nodeCount) :
    planner.check search source target = .ok () := by
  unfold Planner.check
  rw [seeded, Search.isPinned, unpinned]
  simp only [Bool.false_eq_true, if_false, Settings.check, noVisits, noTime, Sides.both,
    Network.requireNode, if_pos sourceInside, if_pos targetInside]
  rfl

/-- A node-based query between nodes of the network is answered with a route if and only if some
walk over open, accepted edges has a finite cost. The route then weighs the least such cost. An
edge is named by a 32-bit number, of which the largest names none. -/
theorem nodeBased_route_leastCost {model : CostModel Exact}
    (network : planner.network = list.pack.network) (pricing : planner.pricing = model.pricing)
    (maker : planner.maker.Lawful) (nodeBased : planner.settings.stateKind = .nodeBased)
    (simple : model = .shortest ∨ ∃ maxSpeed, model = .fastest maxSpeed)
    (tracks : planner.settings.tracksMeeting = true)
    (noVisits : planner.settings.maxVisited = none) (noTime : planner.settings.timeoutMs = none)
    (nonNegative : model.NonNegative list.pack.network) (few : list.edges.size ≤ noEdge)
    (unused : search.IsUnused)
    (unoriented : ArcFilter.Unoriented list.pack.network search.filter)
    {source target : NodeId} (sourceInside : source < list.nodeCount)
    (targetInside : target < list.nodeCount) (clock : Clock) :
    ∃ found, (planner.route source none target none clock search).1 = .ok found ∧
      (found.isSome = true ↔ ∃ walk,
        Walk.Admissible list.pack.network search.filter (.both none) source target walk ∧
          Weight.isFinite (Walk.cost model.pricing noEdge walk) = true) ∧
      ∀ route, found = some route → Weight.isFinite route.weight = true ∧
        Walk.IsLeastCost list.pack.network model.pricing search.filter (.both none) source target
          route.weight := by
  have serves := nonNegative.serves_nodes network pricing maker nodeBased simple
  rw [← pricing]
  refine serves.answer (fun _ => few) tracks noVisits noTime unused unoriented ?_ clock
  refine Planner.check_eq_ok noVisits noTime ?_ rfl ?_ ?_
  · exact unused.seeded
  · rw [network]
    exact sourceInside
  · rw [network]
    exact targetInside

theorem nodeBased_route_leastCost_streets :
    ∃ found, ((⟨EdgeList.streets.pack.network, CostModel.shortest.pricing, {}, .plain⟩ :
        Planner Exact Unit Unit).route 0 none 2 none (fun _ => 0) (.fresh ())).1 = .ok found ∧
      (found.isSome = true ↔ ∃ walk,
        Walk.Admissible EdgeList.streets.pack.network none (.both none) 0 2 walk ∧
          Weight.isFinite (Walk.cost CostModel.shortest.pricing noEdge walk) = true) ∧
      ∀ route, found = some route → Weight.isFinite route.weight = true ∧
        Walk.IsLeastCost EdgeList.streets.pack.network CostModel.shortest.pricing none
          (.both none) 0 2 route.weight :=
  nodeBased_route_leastCost rfl rfl LabelMaker.plain_lawful rfl (.inl rfl) rfl rfl rfl trivial
    (by decide) (Search.fresh_isUnused () none) (fun _ _ _ => rfl) (by decide) (by decide) _

/-- A route that a query is answered with leads along an admissible walk from the source to the
target, whatever limits the search. It weighs what the walk costs, every turn included, and is as
long as the walk. -/
theorem route_follows_walk (serves : planner.Serves list) (unused : search.IsUnused)
    (unoriented : ArcFilter.Unoriented list.pack.network search.filter)
    {source target : NodeId} {sourceEdge targetEdge : Option EdgeId} {clock : Clock}
    {route : Route Exact}
    (found : (planner.route source sourceEdge target targetEdge clock search).1 =
      .ok (some route)) :
    route.nodes.length = route.edges.length + 1 ∧ route.nodes.head? = some source ∧
      route.nodes.getLast? = some target ∧ ∃ walk,
        Walk.Admissible list.pack.network search.filter ⟨sourceEdge, targetEdge⟩ source target
          walk ∧
        route.edges = walk.map (·.edge) ∧
        (∀ place, ∀ arc ∈ walk[place]?, route.nodes[place]? = some arc.near ∧
          route.nodes[place + 1]? = some arc.far) ∧
        route.weight = Walk.cost planner.pricing noEdge walk ∧
        route.length = walk.distance := by
  have prices : planner.Prices (.between source target ⟨sourceEdge, targetEdge⟩ search.filter) :=
    serves.prices (serves.network ▸ unoriented) rfl
  rcases planner.route_cases prices.toLawful unused source target sourceEdge targetEdge clock with
    ⟨fault, _, refused⟩ | ⟨_, begun, later, started, answer⟩
  · rw [found] at refused
    cases refused
  obtain ⟨run, _⟩ := started.run prices.toLawful later
  rw [answer] at found
  rcases run.result_cases prices with ⟨_, isNone⟩ |
    ⟨_, meeting, before, rest, other, _, carries, follows, sameWeight, isSome⟩
  · rw [found] at isNone
    cases isNone
  rw [found] at isSome
  cases isSome
  obtain ⟨cost, isCost, isWeight⟩ := carries.weight
  have weighs : meeting.weight = .finite cost := by
    rcases isWeight with isSum | ⟨immediate, rfl⟩
    · rw [isSum]
      simp [Query.between, Sides.both]
    · exact immediate.weight
  obtain ⟨count, first, last, ends⟩ := follows.ends prices.network carries.admissible.connects
  refine ⟨count, first, last, before.reverse ++ rest, serves.network ▸ carries.admissible,
    follows.edges, ends, ?_, follows.length⟩
  rw [sameWeight, weighs]
  exact isCost.symm

/-- The walk over both streets. -/
def Walk.alongStreets : Walk Exact :=
  [(StoredEdge.twoWay 0 1 (.finite 100)).arc 0 false,
    (StoredEdge.twoWay 1 2 (.finite 50)).arc 1 false]

theorem Walk.alongStreets_admissible :
    Walk.Admissible EdgeList.streets.pack.network none ⟨none, none⟩ 0 2 .alongStreets := by
  refine ⟨⟨?_, ?_, rfl⟩, fun arc member => ?_, nofun, nofun⟩
  · exact EdgeList.mem_arcs_pack.mpr ⟨0, _, false, rfl, rfl, rfl⟩
  · exact EdgeList.mem_arcs_pack.mpr ⟨1, _, false, rfl, rfl, rfl⟩
  · rcases List.mem_cons.mp member with rfl | later
    · exact ⟨by cbv, rfl⟩
    · rw [List.mem_singleton.mp later]
      exact ⟨by cbv, rfl⟩

theorem route_follows_walk_streets :
    ∃ route, (Planner.overStreets.route 0 none 2 none (fun _ => 0) (.fresh ())).1 =
        .ok (some route) ∧
      route.nodes.length = route.edges.length + 1 ∧ route.nodes.head? = some 0 ∧
      route.nodes.getLast? = some 2 ∧ ∃ walk,
        Walk.Admissible EdgeList.streets.pack.network none ⟨none, none⟩ 0 2 walk ∧
        route.edges = walk.map (·.edge) ∧
        (∀ place, ∀ arc ∈ walk[place]?, route.nodes[place]? = some arc.near ∧
          route.nodes[place + 1]? = some arc.far) ∧
        route.weight = Walk.cost Planner.overStreets.pricing noEdge walk ∧
        route.length = walk.distance := by
  have unused := Search.fresh_isUnused (X := Unit) () none
  have accepted : Planner.overStreets.check
      { (Search.fresh () : Search Exact Unit Unit) with pins := ⟨none, none⟩ } 0 2 = .ok () := rfl
  obtain ⟨found, answer, isSome, _⟩ := Planner.overStreets_serves.answer nofun rfl rfl rfl unused
    (fun _ _ _ => rfl) accepted fun _ => 0
  have some := isSome.mpr ⟨.alongStreets, Walk.alongStreets_admissible, by cbv⟩
  obtain ⟨route, rfl⟩ := Option.isSome_iff_exists.mp some
  exact ⟨route, answer, route_follows_walk Planner.overStreets_serves unused (fun _ _ _ => rfl)
    answer⟩

end RouteSearch
