/-
This file proves that the chain of parents from a label to its root is the trail that the label
was reached over, and that the route through a meeting follows the walk of both trails.
-/

import RouteSearch.Proofs.Ancestry
import RouteSearch.Proofs.MeetingWalk

namespace RouteSearch

variable {X S : Type} {planner : Planner Exact X S} {query : Query}

section Branches

variable {direction : Direction} {tree : SearchTree Exact X} {trail : Trail} {id : LabelId}
  {label : Label Exact X}

/-- The hop over an arc on the way from its root. -/
def Arc.hop (arc : Arc Exact) : Hop := ⟨arc.edge, arc.near⟩

/-- The lineage of a label leads back along its trail. -/
theorem Branch.lineage (lawful : planner.network.Lawful)
    (branch : Branch planner query direction tree trail id label) :
    ∃ older, tree.Lineage id (label :: older) ∧
      Route.hops (label :: older) = trail.map Arc.hop ∧
      (label :: older).map (·.node) = trail.map (·.far) ++ [query.ends.get direction] := by
  induction branch with
  | root holds isRoot =>
      exact ⟨[], .root holds isRoot.parent, rfl, congrArg (fun node => [node]) isRoot.node⟩
  | @step before parent above arc id label _ branch closed reaches holds indexed ih =>
      obtain ⟨older, lineage, hops, nodes⟩ := ih
      have near := lawful.near_eq reaches.member
      refine ⟨above :: older, .step holds reaches.parent closed lineage, ?_, ?_⟩
      · rw [Route.hops, hops, List.map_cons, Arc.hop, reaches.edge, near]
      · rw [List.map_cons, nodes, List.map_cons, reaches.node, List.cons_append]

/-- The chain of parents stays the same as long as the label does. -/
theorem Branch.lineage? (lawful : planner.network.Lawful)
    (branch : Branch planner query direction tree trail id label) :
    ∃ chain, Route.hops chain = trail.map Arc.hop ∧
      chain.map (·.node) = trail.map (·.far) ++ [query.ends.get direction] ∧
      ∀ after, tree.Grows after → after.label? id = some label →
        after.lineage? id = some chain := by
  obtain ⟨older, lineage, hops, nodes⟩ := branch.lineage lawful
  refine ⟨label :: older, hops, nodes, fun after grows atId => ?_⟩
  obtain ⟨settled, held⟩ := branch.holds
  obtain ⟨later, kept⟩ := SearchTree.holds_of_label? atId
  apply SearchTree.Lineage.lineage?
  exact lineage.mono grows.settled fun holds => ⟨later, (held.unique holds).1 ▸ kept⟩

end Branches

/-- How far a walk leads over the ground. -/
def Walk.distance : Walk Exact → Exact
  | [] => .finite 0
  | arc :: rest => arc.length + distance rest

/-- The route lists the edges and nodes along the walk, and adds up its lengths. -/
structure Route.Follows (route : Route Exact) (source : NodeId) (walk : Walk Exact) : Prop where
  edges : route.edges = walk.map (·.edge)
  nodes : route.nodes = source :: walk.map (·.far)
  length : route.length = walk.distance

section Splice

variable {network : Network Exact}

theorem Walk.nodes_eq (lawful : network.Lawful) {source target : NodeId} {walk : Walk Exact}
    (connects : Walk.Connects network source walk target) :
    walk.map (·.near) ++ [target] = source :: walk.map (·.far) := by
  induction walk generalizing source with
  | nil => exact congrArg (fun node => [node]) connects.symm
  | cons arc rest ih =>
      rw [List.map_cons, List.cons_append, ih connects.2, lawful.near_eq connects.1,
        List.map_cons]

/-- A route along a walk has one node more than edges, and its nodes are the ends of its arcs. -/
theorem Route.Follows.ends {route : Route Exact} {source target : NodeId} {walk : Walk Exact}
    (follows : route.Follows source walk) (lawful : network.Lawful)
    (connects : Walk.Connects network source walk target) :
    route.nodes.length = route.edges.length + 1 ∧ route.nodes.head? = some source ∧
      route.nodes.getLast? = some target ∧ ∀ place, ∀ arc ∈ walk[place]?,
        route.nodes[place]? = some arc.near ∧ route.nodes[place + 1]? = some arc.far := by
  have nodes := follows.nodes
  rw [← Walk.nodes_eq lawful connects] at nodes
  refine ⟨?_, ?_, ?_, fun place arc atPlace => ⟨?_, ?_⟩⟩
  · rw [follows.nodes, follows.edges, List.length_cons, List.length_map, List.length_map]
  · rw [follows.nodes, List.head?_cons]
  · rw [nodes, List.getLast?_concat]
  · have inside := (List.getElem?_eq_some_iff.mp atPlace).1
    rw [nodes, List.getElem?_append_left (by rwa [List.length_map]), List.getElem?_map, atPlace]
    rfl
  · rw [follows.nodes, List.getElem?_cons_succ, List.getElem?_map, atPlace]
    rfl

/-- Adding up the lengths of hops gives the distance of their arcs. -/
theorem Walk.foldl_lengthInto (lawful : network.Lawful) {hops : List Hop} {walk : Walk Exact}
    (hop : ∀ arc ∈ walk, arc ∈ network.arcs arc.near)
    (same : hops = walk.map Arc.hop ∨ hops = walk.map fun arc => arc.flip.hop) (start : Exact) :
    hops.foldl (fun length hop => length + network.lengthInto hop.edge hop.parentNode) start =
      start + walk.distance := by
  induction walk generalizing hops start with
  | nil =>
      have empty : hops = [] := by
        rcases same with rfl | rfl
        · rfl
        · rfl
      rw [empty]
      exact (Exact.add_zero start).symm
  | cons arc rest ih =>
      have member := hop arc List.mem_cons_self
      have members := fun other later => hop other (List.mem_cons_of_mem arc later)
      rcases same with rfl | rfl
      · rw [List.map_cons, List.foldl_cons, ih members (.inl rfl)]
        change start + network.lengthInto arc.edge arc.near + _ = _
        rw [lawful.length_eq member, distance, Exact.add_assoc]
      · rw [List.map_cons, List.foldl_cons, ih members (.inr rfl)]
        change start + network.lengthInto arc.flip.edge arc.far + _ = _
        rw [lawful.length_eq (lawful.flip_mem member), distance, Exact.add_assoc]
        rfl

theorem Walk.distance_append (first second : Walk Exact) :
    Walk.distance (first ++ second) = first.distance + second.distance := by
  induction first with
  | nil => exact (Exact.zero_add _).symm
  | cons arc rest ih => rw [List.cons_append, distance, ih, distance, Exact.add_assoc]

theorem Walk.members (lawful : network.Lawful) {source target : NodeId} {walk : Walk Exact}
    (connects : Walk.Connects network source walk target) :
    ∀ arc ∈ walk, arc ∈ network.arcs arc.near := by
  induction walk generalizing source with
  | nil => exact fun arc member => absurd member List.not_mem_nil
  | cons arc rest ih =>
      intro other member
      rcases List.mem_cons.mp member with rfl | later
      · exact lawful.near_eq connects.1 ▸ connects.1
      · exact ih connects.2 other later

/-- Chains along both parts of a walk splice into a route that follows it. -/
theorem Route.splice_follows (lawful : network.Lawful) {source target : NodeId} {before : Trail}
    {rest : Walk Exact} {forward backward : List (Label Exact X)} (weight : Exact)
    (connects : Walk.Connects network source (before.reverse ++ rest) target)
    (hopsForward : Route.hops forward = before.map Arc.hop)
    (nodesForward : forward.map (·.node) = before.map (·.far) ++ [source])
    (hopsBackward : Route.hops backward = (rest.map Arc.flip).map Arc.hop)
    (nodesBackward : backward.map (·.node) = (rest.map Arc.flip).map (·.far) ++ [target]) :
    (Route.splice network weight forward backward).Follows source (before.reverse ++ rest) := by
  obtain ⟨middle, connectsLeft, connectsRight⟩ := connects.split
  have flipped : (rest.map Arc.flip).map Arc.hop = rest.map fun arc => arc.flip.hop := by
    rw [List.map_map]
    rfl
  refine ⟨?_, ?_, ?_⟩
  · simp only [Route.splice, hopsForward, hopsBackward]
    simp [Arc.hop, Arc.flip, Function.comp_def]
  · have tail : (backward.map (·.node)).tail = rest.map (·.far) := by
      rw [nodesBackward, List.map_map]
      change (rest.map (·.near) ++ [target]).tail = _
      rw [Walk.nodes_eq lawful connectsRight, List.tail_cons]
    simp only [Route.splice, nodesForward, tail]
    simp
  · simp only [Route.splice, hopsForward, hopsBackward, flipped]
    rw [List.foldl_append, ← List.map_reverse,
      Walk.foldl_lengthInto lawful (Walk.members lawful connectsLeft) (.inl rfl),
      Walk.foldl_lengthInto lawful (Walk.members lawful connectsRight) (.inr rfl),
      Walk.distance_append, Exact.zero_eq, Exact.zero_add]

end Splice

/-- The route through two labels follows the walk along their branches. It stays the same as long
as both labels do. -/
theorem Route.between?_follows {trees : Sides (SearchTree Exact X)} {ends : Sides LabelId}
    {before : Trail} {rest : Walk Exact} (weight : Exact) (lawful : planner.network.Lawful)
    (left : ∃ label, Branch planner query .forward trees.forward before ends.forward label)
    (right : ∃ label,
      Branch planner query .backward trees.backward (rest.map Arc.flip) ends.backward label)
    (connects : Walk.Connects planner.network query.ends.forward (before.reverse ++ rest)
      query.ends.backward) :
    ∃ route, route.Follows query.ends.forward (before.reverse ++ rest) ∧ route.weight = weight ∧
      ∀ after : Sides (SearchTree Exact X),
        (∀ side, (trees.get side).Grows (after.get side)) →
        (∀ side, (after.get side).label? (ends.get side) =
          (trees.get side).label? (ends.get side)) →
        Route.between? planner.network after ends weight = some route := by
  obtain ⟨forward, left⟩ := left
  obtain ⟨backward, right⟩ := right
  obtain ⟨chain, hops, nodes, kept⟩ := left.lineage? lawful
  obtain ⟨chainThere, hopsThere, nodesThere, keptThere⟩ := right.lineage? lawful
  refine ⟨Route.splice planner.network weight chain chainThere,
    Route.splice_follows lawful weight connects hops nodes hopsThere nodesThere, rfl,
    fun after grows labels => ?_⟩
  have atForward := kept _ (grows .forward)
    ((labels .forward).trans left.holds.choose_spec.label?)
  have atBackward := keptThere _ (grows .backward)
    ((labels .backward).trans right.holds.choose_spec.label?)
  unfold Route.between?
  rw [show after.forward.lineage? ends.forward = _ from atForward,
    show after.backward.lineage? ends.backward = _ from atBackward]
  rfl

/-- The route through a meeting follows the walk that the meeting carries. -/
theorem Carries.route {search : Search Exact X S} {meeting : Meeting Exact} {before : Trail}
    {rest : Walk Exact} (lawful : planner.network.Lawful)
    (carries : Carries planner query search meeting before rest) :
    ∃ route, route.Follows query.ends.forward (before.reverse ++ rest) ∧
      route.weight = meeting.weight ∧ ∀ after, search.Extends after →
        (∀ side, (after.tree side).label? (meeting.ends.get side) =
          (search.tree side).label? (meeting.ends.get side)) →
        Route.between? planner.network after.trees meeting.ends meeting.weight = some route := by
  obtain ⟨route, follows, weight, read⟩ := Route.between?_follows meeting.weight lawful
    carries.forward carries.backward carries.admissible.connects
  exact ⟨route, follows, weight,
    fun after extends_ labels => read after.trees extends_.grows labels⟩

end RouteSearch
