/-
This file proves that a packed graph lists at every node the edges that end there, and gives the
laws of a network that a search relies on.
-/

import RouteSearch.Network.Packed
import Mathlib.Data.List.Basic
import Mathlib.Algebra.GroupWithZero.Nat
import Mathlib.Algebra.Order.BigOperators.Group.List
import Mathlib.Algebra.Order.Ring.Nat

namespace RouteSearch

variable {W : Type}

namespace EdgeList

/-- Where an edge is listed at a node: along storage if it starts there, then reversed if it
ends there. -/
def slotsAt (node : NodeId) (edge : EdgeId) (record : StoredEdge W) : List Slot :=
  (if record.source = node then [⟨edge, false⟩] else []) ++
    (if record.target = node then [⟨edge, true⟩] else [])

theorem edge_of_mem_slotsAt {node : NodeId} {edge : EdgeId} {record : StoredEdge W} {slot : Slot}
    (member : slot ∈ slotsAt node edge record) : slot.edge = edge := by
  unfold slotsAt at member
  rcases List.mem_append.mp member with along | against
  · simp_all
  · simp_all

theorem getElem?_distribute (buckets : Array (Array Slot)) (edge : EdgeId)
    (record : StoredEdge W) (node : NodeId) :
    (distribute buckets edge record)[node]?.map Array.toList =
      buckets[node]?.map fun bucket => bucket.toList ++ slotsAt node edge record := by
  unfold distribute slotsAt
  rw [Array.getElem?_modify, Array.getElem?_modify]
  cases buckets[node]? with
  | none => split <;> simp
  | some bucket =>
      by_cases atSource : record.source = node <;> by_cases atTarget : record.target = node <;>
        simp [atSource, atTarget]

theorem getElem?_foldl_distribute (entries : List (StoredEdge W × Nat))
    (buckets : Array (Array Slot)) (node : NodeId) :
    (entries.foldl (fun buckets entry => distribute buckets entry.2 entry.1)
      buckets)[node]?.map Array.toList =
      buckets[node]?.map fun bucket =>
        bucket.toList ++ entries.flatMap fun entry => slotsAt node entry.2 entry.1 := by
  induction entries generalizing buckets with
  | nil =>
      rw [List.foldl_nil]
      cases buckets[node]? <;> simp
  | cons entry rest ih =>
      have step := getElem?_distribute buckets entry.2 entry.1 node
      rw [List.foldl_cons, ih]
      cases before : buckets[node]? <;>
        cases after : (distribute buckets entry.2 entry.1)[node]? <;>
        simp_all

theorem take_drop_flatten {A : Type} (lists : List (List A)) {place : Nat} {part : List A}
    (atPlace : lists[place]? = some part) :
    (lists.flatten.drop ((lists.take place).map List.length).sum).take part.length = part := by
  obtain ⟨inside, rfl⟩ := List.getElem?_eq_some_iff.mp atPlace
  have parts : lists.flatten =
      (lists.take place).flatten ++ (lists[place] ++ (lists.drop (place + 1)).flatten) := by
    rw [← List.flatten_cons, ← List.drop_eq_getElem_cons inside, ← List.flatten_append,
      List.take_append_drop]
  rw [parts, ← List.length_flatten, List.drop_left, List.take_left]

variable [Weight W]

/-- The views of all edges from a node, in the order of the edges' ids. -/
def arcsAt (list : EdgeList W) (node : NodeId) : List (Arc W) :=
  list.edges.toList.zipIdx.flatMap fun entry =>
    (slotsAt node entry.2 entry.1).map fun slot => entry.1.arc entry.2 slot.reversed

theorem getElem?_buckets (list : EdgeList W) {node : NodeId} (inside : node < list.nodeCount) :
    list.buckets[node]?.map Array.toList =
      some (list.edges.toList.zipIdx.flatMap fun entry => slotsAt node entry.2 entry.1) := by
  unfold buckets
  rw [getElem?_foldl_distribute]
  simp [inside]

theorem size_buckets (list : EdgeList W) : list.buckets.size = list.nodeCount := by
  have sizes (entries : List (StoredEdge W × Nat)) (buckets : Array (Array Slot)) :
      (entries.foldl (fun buckets entry => distribute buckets entry.2 entry.1) buckets).size =
        buckets.size := by
    induction entries generalizing buckets with
    | nil => rfl
    | cons entry rest ih =>
        rw [List.foldl_cons, ih]
        simp [distribute]
  rw [buckets, sizes, Array.size_replicate]

theorem getElem?_starts (list : EdgeList W) (node : NodeId) :
    list.pack.starts[node]? = if node ≤ list.nodeCount then
      some (((list.buckets.toList.map Array.toList).take node).map List.length).sum else none := by
  have sizes : list.buckets.toList.map Array.size =
      (list.buckets.toList.map Array.toList).map List.length := by
    simp [Function.comp_def]
  simp only [pack, runningSums, List.getElem?_toArray, List.getElem?_scanl, sizes,
    List.length_map, Array.length_toList, size_buckets]
  rw [← List.map_take, List.sum_eq_foldl_nat]

/-- A node owns the slots of the edges that start or end there, by their ids. -/
theorem slots_pack (list : EdgeList W) {node : NodeId} (inside : node < list.nodeCount) :
    ∃ first last, list.pack.starts[node]? = some first ∧
      list.pack.starts[node + 1]? = some last ∧
      (list.pack.slots.extract first last).toList =
        list.edges.toList.zipIdx.flatMap fun entry => slotsAt node entry.2 entry.1 := by
  obtain ⟨bucket, atNode, slots⟩ := Option.map_eq_some_iff.mp (list.getElem?_buckets inside)
  have listed : (list.buckets.toList.map Array.toList)[node]? = some bucket.toList := by
    simp [atNode]
  have part := take_drop_flatten _ listed
  have atStart := list.getElem?_starts node
  have atEnd := list.getElem?_starts (node + 1)
  rw [if_pos (Nat.le_of_lt inside)] at atStart
  rw [if_pos (Nat.succ_le_of_lt inside), List.take_add_one, listed] at atEnd
  refine ⟨_, _, atStart, atEnd, ?_⟩
  rw [Array.toList_extract, List.extract_eq_take_drop, ← slots]
  simpa [pack] using part

/-- At every node a packed graph lists the edges that start or end there, by their ids. -/
theorem arcs?_pack (list : EdgeList W) {node : NodeId} (inside : node < list.nodeCount) :
    list.pack.arcs? node = some (list.arcsAt node) := by
  obtain ⟨first, last, atStart, atEnd, slots⟩ := list.slots_pack inside
  unfold PackedGraph.arcs?
  rw [atStart, atEnd]
  simp only [Option.bind_eq_bind, Option.bind_some, Option.pure_def, Option.some.injEq]
  rw [slots, arcsAt, List.filterMap_flatMap]
  refine List.flatMap_congr fun entry member => ?_
  have stored : list.pack.edges[entry.2]? = some entry.1 := by
    simpa [pack] using List.mem_zipIdx_iff_getElem?.mp member
  rw [← List.filterMap_eq_map']
  refine List.filterMap_congr fun slot slotMember => ?_
  rw [PackedGraph.arcAt?, edge_of_mem_slotsAt slotMember, stored, Option.map_some]

theorem mem_arcsAt {list : EdgeList W} {node : NodeId} {arc : Arc W} :
    arc ∈ list.arcsAt node ↔ ∃ (edge : EdgeId) (record : StoredEdge W) (reversed : Bool),
      list.edges[edge]? = some record ∧ record.arc edge reversed = arc ∧ arc.near = node := by
  unfold arcsAt slotsAt
  rw [List.mem_flatMap]
  constructor
  · rintro ⟨⟨record, edge⟩, member, listed⟩
    have stored : list.edges[edge]? = some record := by
      simpa using List.mem_zipIdx_iff_getElem?.mp member
    rw [List.map_append, List.mem_append] at listed
    rcases listed with along | against
    · by_cases atSource : record.source = node
      · refine ⟨edge, record, false, stored, ?_⟩
        simp_all [StoredEdge.arc]
      · simp [atSource] at along
    · by_cases atTarget : record.target = node
      · refine ⟨edge, record, true, stored, ?_⟩
        simp_all [StoredEdge.arc]
      · simp [atTarget] at against
  · rintro ⟨edge, record, reversed, stored, rfl, atNode⟩
    refine ⟨(record, edge), List.mem_zipIdx_iff_getElem?.mpr (by simpa using stored), ?_⟩
    cases reversed <;> simp_all [StoredEdge.arc]

theorem nodes_lt (list : EdgeList W) {edge : EdgeId} {record : StoredEdge W}
    (stored : list.edges[edge]? = some record) (reversed : Bool) :
    (record.arc edge reversed).near < list.nodeCount := by
  have fits := list.fits record (Array.mem_of_getElem? stored)
  cases reversed
  · exact fits.source_lt
  · exact fits.target_lt

/-- A packed graph lists at a node the views of its edges, and nothing at any other node. -/
theorem arcs_pack (list : EdgeList W) (node : NodeId) : list.pack.network.arcs node =
    if node < list.nodeCount then list.arcsAt node else [] := by
  change (list.pack.arcs? node).getD [] = _
  split
  · rename_i inside
    rw [arcs?_pack list inside, Option.getD_some]
  · rename_i outside
    have none : list.pack.starts[node + 1]? = none := by
      rw [getElem?_starts, if_neg (show ¬node + 1 ≤ _ from outside)]
    simp [PackedGraph.arcs?, none]

/-- An arc at a node of a packed graph is a view of a stored edge from that node. -/
theorem mem_arcs_pack {list : EdgeList W} {node : NodeId} {arc : Arc W} :
    arc ∈ list.pack.network.arcs node ↔
      ∃ (edge : EdgeId) (record : StoredEdge W) (reversed : Bool),
      list.edges[edge]? = some record ∧ record.arc edge reversed = arc ∧ arc.near = node := by
  rw [arcs_pack]
  split
  · exact mem_arcsAt
  · rename_i outside
    refine iff_of_false List.not_mem_nil ?_
    rintro ⟨edge, record, reversed, stored, rfl, rfl⟩
    exact outside (list.nodes_lt stored reversed)

/-- An edge is listed at a node twice at most. -/
theorem length_arcs_pack_le (list : EdgeList W) (node : NodeId) :
    (list.pack.network.arcs node).length ≤ 2 * list.pack.network.edgeCount := by
  rw [arcs_pack]
  split
  · change _ ≤ 2 * list.edges.size
    rw [arcsAt, List.length_flatMap]
    have each : ∀ count ∈ list.edges.toList.zipIdx.map fun entry =>
        ((slotsAt node entry.2 entry.1).map fun slot => entry.1.arc entry.2 slot.reversed).length,
        count ≤ 2 := by
      intro count member
      obtain ⟨entry, _, rfl⟩ := List.mem_map.mp member
      rw [List.length_map, slotsAt, List.length_append]
      split <;> split <;> simp
    have total := List.sum_le_card_nsmul _ 2 each
    rw [List.length_map, List.length_zipIdx, Array.length_toList] at total
    exact total.trans_eq (Nat.mul_comm _ _)
  · exact Nat.zero_le _

end EdgeList

/-- What a search relies on: every arc at a node leaves it, its other view is listed at the
other end, an edge has no further views, and its length is the same from both ends. -/
structure Network.Lawful [Weight W] (network : Network W) : Prop where
  near_eq : ∀ {node arc}, arc ∈ network.arcs node → arc.near = node
  flip_mem : ∀ {node arc}, arc ∈ network.arcs node → arc.flip ∈ network.arcs arc.far
  same_edge : ∀ {node other first second}, first ∈ network.arcs node →
    second ∈ network.arcs other → first.edge = second.edge →
      second = first ∨ second = first.flip
  edge_lt : ∀ {node arc}, arc ∈ network.arcs node → arc.edge < network.edgeCount
  length_eq : ∀ {node arc}, arc ∈ network.arcs node →
    network.lengthInto arc.edge node = arc.length

namespace Network.Lawful

variable [Weight W] {network : Network W}

/-- An arc is known by its edge and the sense of its view. -/
theorem eq_of_reversed (lawful : network.Lawful) {node other : NodeId} {first second : Arc W}
    (firstMember : first ∈ network.arcs node) (secondMember : second ∈ network.arcs other)
    (sameEdge : first.edge = second.edge) (sameSense : first.reversed = second.reversed) :
    second = first := by
  refine (lawful.same_edge firstMember secondMember sameEdge).resolve_right fun flipped => ?_
  rw [flipped] at sameSense
  cases sense : first.reversed <;> simp [Arc.flip, sense] at sameSense

end Network.Lawful

section Chains

variable {W : Type} (chainEnds : EdgeId → Option (EdgeId × EdgeId))

/-- Only the original edges of an arc change with the chains. -/
theorem Arc.chained_eq (arc : Arc W) : ∃ first last, arc.chained chainEnds =
    { arc with
      firstEdge := first
      lastEdge := last } := by
  unfold chained
  split
  · exact ⟨_, _, rfl⟩
  · split
    · exact ⟨_, _, rfl⟩
    · exact ⟨_, _, rfl⟩

theorem Arc.chained_flip (arc : Arc W) :
    (arc.chained chainEnds).flip = arc.flip.chained chainEnds := by
  obtain ⟨edge, _, _, reversed⟩ := arc
  simp only [chained, flip]
  cases chainEnds edge with
  | none => rfl
  | some ends => cases reversed <;> rfl

/-- Edges that stand for chains leave a network lawful. -/
theorem Network.Lawful.withChains [Weight W] {network : Network W} (lawful : network.Lawful) :
    (network.withChains chainEnds).Lawful where
  near_eq member := by
    obtain ⟨arc, inner, rfl⟩ := List.mem_map.mp member
    have near := lawful.near_eq inner
    obtain ⟨_, _, isChain⟩ := arc.chained_eq chainEnds
    rw [isChain]
    exact near
  flip_mem member := by
    obtain ⟨arc, inner, rfl⟩ := List.mem_map.mp member
    obtain ⟨_, _, isChain⟩ := arc.chained_eq chainEnds
    rw [arc.chained_flip, isChain]
    exact List.mem_map_of_mem (lawful.flip_mem inner)
  same_edge firstMember secondMember same := by
    obtain ⟨first, firstInner, rfl⟩ := List.mem_map.mp firstMember
    obtain ⟨second, secondInner, rfl⟩ := List.mem_map.mp secondMember
    obtain ⟨_, _, isFirst⟩ := first.chained_eq chainEnds
    obtain ⟨_, _, isSecond⟩ := second.chained_eq chainEnds
    rw [isFirst, isSecond] at same
    rcases lawful.same_edge firstInner secondInner same with rfl | rfl
    · exact .inl rfl
    · exact .inr (first.chained_flip chainEnds).symm
  edge_lt member := by
    obtain ⟨arc, inner, rfl⟩ := List.mem_map.mp member
    have inside := lawful.edge_lt inner
    obtain ⟨_, _, isChain⟩ := arc.chained_eq chainEnds
    rw [isChain]
    exact inside
  length_eq {node _} member := by
    obtain ⟨arc, inner, rfl⟩ := List.mem_map.mp member
    have same := lawful.length_eq inner
    obtain ⟨_, _, isChain⟩ := arc.chained_eq chainEnds
    rw [isChain]
    change (network.withChains chainEnds).lengthInto arc.edge node = arc.length
    rw [← same]
    unfold lengthInto Network.withChains
    dsimp only
    cases network.arcInto? arc.edge node with
    | none => rfl
    | some into =>
        obtain ⟨_, _, isInto⟩ := into.chained_eq chainEnds
        rw [Option.map_some, isInto]

end Chains

/-- Packed graphs are lawful networks. -/
theorem EdgeList.lawful_pack [Weight W] (list : EdgeList W) : list.pack.network.Lawful where
  near_eq member := by
    obtain ⟨_, _, _, _, _, atNode⟩ := EdgeList.mem_arcs_pack.mp member
    exact atNode
  flip_mem member := by
    obtain ⟨edge, record, reversed, stored, rfl, _⟩ := EdgeList.mem_arcs_pack.mp member
    exact EdgeList.mem_arcs_pack.mpr
      ⟨edge, record, !reversed, stored, (record.flip_arc edge _).symm, rfl⟩
  same_edge firstMember secondMember same := by
    obtain ⟨edge, record, reversed, stored, rfl, _⟩ := EdgeList.mem_arcs_pack.mp firstMember
    obtain ⟨edge', record', reversed', stored', rfl, _⟩ := EdgeList.mem_arcs_pack.mp secondMember
    have sameEdge : edge = edge' := same
    subst sameEdge
    have sameRecord : record = record' := Option.some.inj (stored.symm.trans stored')
    subst sameRecord
    rw [record.flip_arc]
    cases reversed <;> cases reversed' <;> simp
  edge_lt member := by
    obtain ⟨edge, record, reversed, stored, rfl, _⟩ := EdgeList.mem_arcs_pack.mp member
    exact (Array.getElem?_eq_some_iff.mp stored).1
  length_eq member := by
    obtain ⟨edge, record, reversed, stored, rfl, rfl⟩ := EdgeList.mem_arcs_pack.mp member
    have found : list.pack.edges[(record.arc edge reversed).edge]? = some record := stored
    simp only [Network.lengthInto, PackedGraph.network, PackedGraph.arcInto?, found]
    by_cases atTarget : record.target = (record.arc edge reversed).near
    · rw [if_pos atTarget]
      rfl
    · have atSource : record.source = (record.arc edge reversed).near := by
        cases reversed
        · rfl
        · exact absurd rfl atTarget
      rw [if_neg atTarget, if_pos atSource]
      rfl

/-- Stored edges have names of their own, unless there are as many as 32-bit names. -/
theorem EdgeList.named_pack [Weight W] {list : EdgeList W} (few : list.edges.size ≤ noEdge)
    {node : NodeId} {arc : Arc W} (member : arc ∈ list.pack.network.arcs node) :
    arc.edge ≠ noEdge :=
  Nat.ne_of_lt (Nat.lt_of_lt_of_le (list.lawful_pack.edge_lt member) few)

end RouteSearch
