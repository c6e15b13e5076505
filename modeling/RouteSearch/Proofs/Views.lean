/-
This file proves that the ways to look at an edge of a packed graph agree: from a node, on the way
into a node, from end to end, and by the key of the state behind it.
-/

import RouteSearch.Proofs.Branch
import RouteSearch.Weight.Exact

namespace RouteSearch

variable {W : Type}

/-- The view along which a search travels: backward it comes over the arc towards `near`. -/
def Arc.travelled (arc : Arc W) : Direction → Arc W
  | .forward => arc
  | .backward => arc.flip

/-- The key tells along which view an arc is travelled, whichever direction the search has. -/
theorem StateKind.key_travelled (arc : Arc W) (direction : Direction) :
    StateKind.edgeBased.key (arc.travelled direction) .forward =
      StateKind.edgeBased.key arc direction := by
  cases direction with
  | forward => rfl
  | backward => exact StateKind.key_flip arc .forward

variable [Weight W]

theorem Network.Lawful.travelled_mem {network : Network W} (lawful : network.Lawful)
    {node : NodeId} {arc : Arc W} (member : arc ∈ network.arcs node) (direction : Direction) :
    ∃ start, arc.travelled direction ∈ network.arcs start := by
  cases direction with
  | forward => exact ⟨node, member⟩
  | backward => exact ⟨arc.far, lawful.flip_mem member⟩

/-- Two searches have one key for their states if and only if they travel one edge in one sense. -/
theorem Network.Lawful.key_eq_iff {network : Network W} (lawful : network.Lawful)
    {node otherNode : NodeId} {arc other : Arc W} (member : arc ∈ network.arcs node)
    (otherMember : other ∈ network.arcs otherNode) (direction otherDirection : Direction) :
    StateKind.edgeBased.key arc direction = StateKind.edgeBased.key other otherDirection ↔
      arc.travelled direction = other.travelled otherDirection := by
  obtain ⟨_, listed⟩ := lawful.travelled_mem member direction
  obtain ⟨_, otherListed⟩ := lawful.travelled_mem otherMember otherDirection
  rw [← StateKind.key_travelled arc, ← StateKind.key_travelled other]
  constructor
  · intro same
    obtain ⟨sameEdge, sameSense⟩ := StateKind.key_eq same
    exact (lawful.eq_of_reversed listed otherListed sameEdge sameSense).symm
  · intro same
    rw [same]

namespace EdgeList

omit [Weight W] in
/-- An edge is listed at a node once in each sense at most. -/
theorem nodup_slotsAt (node : NodeId) (edge : EdgeId) (record : StoredEdge W) :
    (slotsAt node edge record).Nodup := by
  unfold slotsAt
  split <;> split <;> simp

/-- No view is listed twice. -/
theorem nodup_arcs_pack (list : EdgeList W) (node : NodeId) :
    (list.pack.network.arcs node).Nodup := by
  rw [arcs_pack]
  split
  · rw [arcsAt, List.nodup_flatMap]
    constructor
    · intro entry _
      refine (nodup_slotsAt node entry.2 entry.1).map_on fun first firstMember second
        secondMember same => ?_
      have sameEdge : first.edge = second.edge :=
        (edge_of_mem_slotsAt firstMember).trans (edge_of_mem_slotsAt secondMember).symm
      have sameSense : first.reversed = second.reversed := congrArg Arc.reversed same
      cases first
      cases second
      exact congr (congrArg Slot.mk sameEdge) sameSense
    · have apart : list.edges.toList.zipIdx.Pairwise fun first second => first.2 ≠ second.2 := by
        apply List.pairwise_map.mp
        rw [List.zipIdx_map_snd]
        exact List.nodup_range'
      refine apart.imp fun {first second} differs arc atFirst atSecond => differs ?_
      obtain ⟨_, _, isFirst⟩ := List.mem_map.mp atFirst
      obtain ⟨_, _, isSecond⟩ := List.mem_map.mp atSecond
      exact congrArg Arc.edge (isFirst.trans isSecond.symm)
  · exact List.nodup_nil

/-- The other view of an arc is listed at its other end, at one place. -/
theorem unique_flip (list : EdgeList W) {node : NodeId} {arc : Arc W}
    (member : arc ∈ list.pack.network.arcs node) :
    ∃! place : Nat, (list.pack.network.arcs arc.far)[place]? = some arc.flip := by
  obtain ⟨place, atPlace⟩ := List.getElem?_of_mem (list.lawful_pack.flip_mem member)
  refine ⟨place, atPlace, fun other atOther => ?_⟩
  have inside := (List.getElem?_eq_some_iff.mp atOther).1
  exact (List.getElem?_inj inside (list.nodup_arcs_pack arc.far)).mp (atOther.trans atPlace.symm)

/-- From either end of an edge the other one is found. -/
theorem otherEnd?_pack (list : EdgeList W) {node : NodeId} {arc : Arc W}
    (member : arc ∈ list.pack.network.arcs node) :
    list.pack.otherEnd? arc.edge node = some arc.far ∧
      list.pack.otherEnd? arc.edge arc.far = some node := by
  obtain ⟨edge, record, reversed, stored, rfl, rfl⟩ := mem_arcs_pack.mp member
  have found (end' : NodeId) : list.pack.otherEnd? edge end' =
      some (if record.source = end' then record.target else record.source) := by
    rw [PackedGraph.otherEnd?, show list.pack.edges[edge]? = some record from stored,
      Option.map_some]
  change list.pack.otherEnd? edge _ = _ ∧ list.pack.otherEnd? edge _ = _
  rw [found, found]
  cases reversed with
  | false =>
      by_cases isLoop : record.source = record.target
      · simp [StoredEdge.arc, isLoop]
      · simp [StoredEdge.arc, isLoop]
  | true =>
      by_cases isLoop : record.source = record.target
      · simp [StoredEdge.arc, isLoop]
      · simp [StoredEdge.arc, isLoop]

/-- An arc is what is seen on the way into its far end, but a loop is seen along storage. -/
theorem arcInto?_pack (list : EdgeList W) {node : NodeId} {arc : Arc W}
    (member : arc ∈ list.pack.network.arcs node) : list.pack.arcInto? arc.edge arc.far =
      some (if arc.near = arc.far ∧ arc.reversed = true then arc.flip else arc) := by
  obtain ⟨edge, record, reversed, stored, rfl, rfl⟩ := mem_arcs_pack.mp member
  have found : list.pack.edges[(record.arc edge reversed).edge]? = some record := stored
  rw [PackedGraph.arcInto?, found, record.flip_arc]
  cases reversed with
  | false => simp [StoredEdge.arc]
  | true =>
      by_cases isLoop : record.target = record.source
      · simp [StoredEdge.arc, isLoop]
      · simp [StoredEdge.arc, isLoop]

theorem arcInto?_eq_none (list : EdgeList W) (edge : EdgeId) (node : NodeId) :
    list.pack.arcInto? edge node = none ↔ ∀ record, list.edges[edge]? = some record →
      record.source ≠ node ∧ record.target ≠ node := by
  rw [PackedGraph.arcInto?, show list.pack.edges[edge]? = list.edges[edge]? from rfl]
  cases list.edges[edge]? with
  | none => simp
  | some record =>
      by_cases atTarget : record.target = node
      · simp [atTarget]
      · by_cases atSource : record.source = node
        · simp [atTarget, atSource]
        · simp [atTarget, atSource]

/-- All ways to look at an edge of a packed graph agree. An arc at a node leads from there to its
other end, is what is seen on the way into that end (a loop is seen along storage), and its other
view is listed there once. An edge is not seen on the way into a node that it does not end at. And
a key stands for one edge travelled in one sense, so that both views of an edge share it in
opposite directions. -/
theorem views_agree (list : EdgeList W) :
    (∀ node, ∀ arc ∈ list.pack.network.arcs node,
      list.pack.otherEnd? arc.edge node = some arc.far ∧
      list.pack.otherEnd? arc.edge arc.far = some node ∧
      list.pack.arcInto? arc.edge arc.far =
        some (if arc.near = arc.far ∧ arc.reversed = true then arc.flip else arc) ∧
      (∃! place : Nat, (list.pack.network.arcs arc.far)[place]? = some arc.flip) ∧
      ∀ direction, StateKind.edgeBased.key arc direction =
        StateKind.edgeBased.key arc.flip direction.opposite) ∧
    (∀ edge node, list.pack.arcInto? edge node = none ↔
      ∀ record, list.edges[edge]? = some record →
        record.source ≠ node ∧ record.target ≠ node) ∧
    ∀ node otherNode, ∀ arc ∈ list.pack.network.arcs node,
      ∀ other ∈ list.pack.network.arcs otherNode, ∀ direction otherDirection,
        StateKind.edgeBased.key arc direction = StateKind.edgeBased.key other otherDirection ↔
          arc.travelled direction = other.travelled otherDirection := by
  refine ⟨fun node arc member => ?_, list.arcInto?_eq_none, fun _ _ arc member other otherMember =>
    list.lawful_pack.key_eq_iff member otherMember⟩
  obtain ⟨fromNear, fromFar⟩ := list.otherEnd?_pack member
  refine ⟨fromNear, fromFar, list.arcInto?_pack member, list.unique_flip member,
    fun direction => ?_⟩
  rw [StateKind.key_flip, Direction.opposite_opposite]

/-- A one-way loop at a node, and two streets from there to the other node. -/
def looped : EdgeList Exact where
  nodeCount := 2
  edges := #[.oneWay 0 0 (.finite 5), .twoWay 0 1 (.finite 5), .oneWay 1 0 (.finite 5)]
  fits := by
    intro record member
    simp only [List.mem_toArray, List.mem_cons, List.not_mem_nil, or_false] at member
    rcases member with rfl | rfl | rfl
    all_goals exact ⟨by decide, by decide, by decide⟩

/-- The loop seen against storage is listed at its node. On the way into the node it is seen along
storage, and a backward search that comes over it has the key of a forward search along it. -/
theorem views_agree_loop :
    (StoredEdge.oneWay 0 0 (Exact.finite 5)).arc 0 true ∈ looped.pack.network.arcs 0 ∧
      looped.pack.arcInto? 0 0 = some ((StoredEdge.oneWay 0 0 (.finite 5)).arc 0 false) ∧
      StateKind.edgeBased.key ((StoredEdge.oneWay 0 0 (Exact.finite 5)).arc 0 true) .backward =
        StateKind.edgeBased.key ((StoredEdge.oneWay 0 0 (Exact.finite 5)).arc 0 false) .forward ∧
      StateKind.edgeBased.key ((StoredEdge.oneWay 0 0 (Exact.finite 5)).arc 0 true) .forward ≠
        StateKind.edgeBased.key ((StoredEdge.oneWay 0 0 (Exact.finite 5)).arc 0 false) .forward ∧
      looped.pack.arcInto? 0 1 = none := by
  have against : (StoredEdge.oneWay 0 0 (Exact.finite 5)).arc 0 true ∈
      looped.pack.network.arcs 0 := mem_arcs_pack.mpr ⟨0, _, true, rfl, rfl, rfl⟩
  have along : (StoredEdge.oneWay 0 0 (Exact.finite 5)).arc 0 false ∈
      looped.pack.network.arcs 0 := mem_arcs_pack.mpr ⟨0, _, false, rfl, rfl, rfl⟩
  obtain ⟨arcs, outside, keys⟩ := views_agree looped
  obtain ⟨_, _, into, _, flipped⟩ := arcs 0 _ against
  refine ⟨against, into, flipped .backward, fun same => ?_, (outside 0 1).mpr ?_⟩
  · have travelled := (keys 0 0 _ against _ along .forward .forward).mp same
    exact Bool.noConfusion (congrArg Arc.reversed travelled)
  · rintro record stored
    cases stored
    exact ⟨by decide, by decide⟩

end EdgeList

end RouteSearch
