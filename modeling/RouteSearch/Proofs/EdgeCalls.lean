/-
This file proves that a network has the edges that were asked for and not refused, and that every
node lists the views of these edges by their ids.
-/

import RouteSearch.Network.EdgeCall
import RouteSearch.Proofs.Layout
import RouteSearch.Weight.Exact
import Mathlib.Data.Multiset.Bind

namespace RouteSearch

variable {W : Type}

section Calls

variable [Weight W]

instance (record : StoredEdge W) (nodeCount : Nat) : Decidable (record.Fits nodeCount) :=
  decidable_of_iff
    (record.source < nodeCount ∧ record.target < nodeCount ∧ record.hasLength = true)
    ⟨fun ⟨source, target, length⟩ => ⟨source, target, length⟩,
      fun fits => ⟨fits.source_lt, fits.target_lt, fits.hasLength⟩⟩

/-- The edges over so many nodes that calls ask for and are not refused. -/
def EdgeCall.accepted (nodeCount : Nat) (calls : List (EdgeCall W)) : List (StoredEdge W) :=
  (calls.map EdgeCall.record).filter (·.Fits nodeCount)

namespace EdgeList

variable {list : EdgeList W} {call : EdgeCall W}

/-- An edge that fits is added at the end. -/
theorem add_of_fits {record : StoredEdge W} (fits : record.Fits list.nodeCount) :
    ∃ longer, list.add record = .ok longer ∧ longer.nodeCount = list.nodeCount ∧
      longer.edges = list.edges.push record := by
  rw [add, dif_pos fits.source_lt, dif_pos fits.target_lt, dif_pos fits.hasLength]
  exact ⟨_, rfl, rfl, rfl⟩

/-- An edge that does not fit is refused. -/
theorem add_of_misfit {record : StoredEdge W} (misfit : ¬ record.Fits list.nodeCount) :
    ∃ error, list.add record = .error error := by
  unfold add
  split
  · rename_i source
    split
    · rename_i target
      split
      · rename_i length
        exact absurd ⟨source, target, length⟩ misfit
      · exact ⟨_, rfl⟩
    · exact ⟨_, rfl⟩
  · exact ⟨_, rfl⟩

/-- The calls that are not refused are answered with the next ids, and add their edges. -/
theorem performAll_eq (calls : List (EdgeCall W)) (list : EdgeList W) :
    (list.performAll calls).1.map Except.isOk =
        calls.map (fun call => decide (call.record.Fits list.nodeCount)) ∧
      (list.performAll calls).1.filterMap Except.toOption =
        List.range' list.edges.size (EdgeCall.accepted list.nodeCount calls).length ∧
      (list.performAll calls).2.nodeCount = list.nodeCount ∧
      (list.performAll calls).2.edges.toList =
        list.edges.toList ++ EdgeCall.accepted list.nodeCount calls := by
  induction calls generalizing list with
  | nil => simp [performAll, EdgeCall.accepted]
  | cons call calls ih =>
      unfold performAll perform
      by_cases fits : call.record.Fits list.nodeCount
      · obtain ⟨longer, added, nodes, edges⟩ := add_of_fits fits
        obtain ⟨answers, ids, sameNodes, allEdges⟩ := ih longer
        rw [nodes] at answers ids sameNodes allEdges
        rw [added]
        have first : EdgeCall.accepted list.nodeCount (call :: calls) =
            call.record :: EdgeCall.accepted list.nodeCount calls := by
          simp [EdgeCall.accepted, fits]
        refine ⟨?_, ?_, sameNodes, ?_⟩
        · simp [answers, fits, Except.isOk, Except.toBool]
        · simp [ids, first, edges, Except.toOption, List.range'_succ]
        · simp [allEdges, first, edges]
      · obtain ⟨error, refused⟩ := add_of_misfit fits
        obtain ⟨answers, ids, sameNodes, allEdges⟩ := ih list
        rw [refused]
        have first : EdgeCall.accepted list.nodeCount (call :: calls) =
            EdgeCall.accepted list.nodeCount calls := by
          simp [EdgeCall.accepted, fits]
        refine ⟨?_, ?_, sameNodes, ?_⟩
        · simp [answers, fits, Except.isOk, Except.toBool]
        · simp [List.filterMap_cons, ids, first, Except.toOption]
        · simp [allEdges, first]

end EdgeList

end Calls

section Views

/-- The views of an edge from a node: along storage if it starts there, and then against storage if
it ends there. Speeds follow the view. -/
def StoredEdge.viewsFrom (record : StoredEdge W) (edge : EdgeId) (node : NodeId) : List (Arc W) :=
  (if record.source = node then
    [{ edge := edge
       near := node
       far := record.target
       reversed := false
       firstEdge := edge
       lastEdge := edge
       length := record.length
       speedOut := record.speedAlong
       speedIn := record.speedAgainst }]
  else []) ++
  (if record.target = node then
    [{ edge := edge
       near := node
       far := record.source
       reversed := true
       firstEdge := edge
       lastEdge := edge
       length := record.length
       speedOut := record.speedAgainst
       speedIn := record.speedAlong }]
  else [])

theorem StoredEdge.viewsFrom_eq (record : StoredEdge W) (edge : EdgeId) (node : NodeId) :
    record.viewsFrom edge node =
      (if record.source = node then [record.arc edge false] else []) ++
        (if record.target = node then [record.arc edge true] else []) := by
  unfold viewsFrom StoredEdge.arc
  by_cases atSource : record.source = node <;> by_cases atTarget : record.target = node <;>
    simp [atSource, atTarget]

/-- Of all nodes, one alone lists what stands at that node. -/
theorem flatMap_range_at {A : Type} {nodeCount : Nat} {node : NodeId} (inside : node < nodeCount)
    (item : A) : ((List.range nodeCount).flatMap fun other =>
      if node = other then [item] else []) = [item] := by
  induction nodeCount with
  | zero => exact absurd inside (Nat.not_lt_zero node)
  | succ nodeCount ih =>
      rw [List.range_succ, List.flatMap_append, List.flatMap_singleton]
      by_cases isLast : node = nodeCount
      · have before : ((List.range nodeCount).flatMap fun other =>
            if node = other then [item] else []) = [] := by
          rw [List.flatMap_eq_nil_iff]
          intro other member
          exact if_neg (isLast ▸ Nat.ne_of_gt (List.mem_range.mp member))
        rw [before, if_pos isLast, List.nil_append]
      · rw [ih (Nat.lt_of_le_of_ne (Nat.le_of_lt_succ inside) isLast), if_neg isLast,
          List.append_nil]

/-- Together, the nodes list either view of an edge once. -/
theorem StoredEdge.viewsFrom_perm {record : StoredEdge W} {nodeCount : Nat}
    (source : record.source < nodeCount) (target : record.target < nodeCount) (edge : EdgeId) :
    ((List.range nodeCount).flatMap (record.viewsFrom edge)).Perm
      [record.arc edge false, record.arc edge true] := by
  have views : record.viewsFrom edge = fun node =>
      (if record.source = node then [record.arc edge false] else []) ++
        (if record.target = node then [record.arc edge true] else []) :=
    funext (record.viewsFrom_eq edge)
  rw [views]
  refine (List.flatMap_append_perm _ _ _).symm.trans ?_
  rw [flatMap_range_at source, flatMap_range_at target]
  exact .rfl

end Views

namespace EdgeList

variable [Weight W]

theorem arcsAt_eq (list : EdgeList W) (node : NodeId) : list.arcsAt node =
    list.edges.toList.zipIdx.flatMap fun entry => entry.1.viewsFrom entry.2 node := by
  rw [arcsAt]
  refine List.flatMap_congr fun entry _ => ?_
  rw [entry.1.viewsFrom_eq, slotsAt]
  by_cases atSource : entry.1.source = node <;> by_cases atTarget : entry.1.target = node <;>
    simp [atSource, atTarget]

/-- The nodes of a packed graph list both views of every edge, each of them once. -/
theorem arcs_perm (list : EdgeList W) :
    ((List.range list.nodeCount).flatMap list.pack.network.arcs).Perm
      (list.edges.toList.zipIdx.flatMap fun entry =>
        [entry.1.arc entry.2 false, entry.1.arc entry.2 true]) := by
  have listed : (List.range list.nodeCount).flatMap list.pack.network.arcs =
      (List.range list.nodeCount).flatMap fun node =>
        list.edges.toList.zipIdx.flatMap fun entry => entry.1.viewsFrom entry.2 node := by
    refine List.flatMap_congr fun node member => ?_
    rw [arcs_pack, if_pos (List.mem_range.mp member), arcsAt_eq]
  have exchanged : ((List.range list.nodeCount).flatMap fun node =>
      list.edges.toList.zipIdx.flatMap fun entry => entry.1.viewsFrom entry.2 node).Perm
      (list.edges.toList.zipIdx.flatMap fun entry =>
        (List.range list.nodeCount).flatMap (entry.1.viewsFrom entry.2)) := by
    have swapped := Multiset.bind_bind (List.range list.nodeCount : Multiset NodeId)
      (list.edges.toList.zipIdx : Multiset (StoredEdge W × Nat))
      (f := fun node entry => (entry.1.viewsFrom entry.2 node : Multiset (Arc W)))
    simp only [Multiset.coe_bind] at swapped
    exact Multiset.coe_eq_coe.mp swapped
  rw [listed]
  refine exchanged.trans (List.Perm.flatMap_left _ fun entry member => ?_)
  have stored : list.edges[entry.2]? = some entry.1 := by
    simpa using List.mem_zipIdx_iff_getElem?.mp member
  have fits := list.fits entry.1 (Array.mem_of_getElem? stored)
  exact StoredEdge.viewsFrom_perm fits.source_lt fits.target_lt entry.2

/-- Whatever calls are made, those that are not refused are answered with the ids from zero on, and
the refused ones leave no trace. The edges are laid out without a place outside an array. Every
node lists the views that it has of the edges, by their ids, and all nodes together list both views
of every edge. -/
theorem performAll_laidOut (nodeCount : Nat) (calls : List (EdgeCall W)) :
    let accepted := EdgeCall.accepted nodeCount calls
    let answers := ((empty nodeCount).performAll calls).1
    let list := ((empty nodeCount).performAll calls).2
    answers.map Except.isOk = calls.map (fun call => decide (call.record.Fits nodeCount)) ∧
    answers.filterMap Except.toOption = List.range accepted.length ∧
    list.nodeCount = nodeCount ∧ list.edges.toList = accepted ∧
    list.layOut? = some list.pack ∧
    (∀ node < nodeCount, list.pack.arcs? node =
      some (accepted.zipIdx.flatMap fun entry => entry.1.viewsFrom entry.2 node)) ∧
    ((List.range nodeCount).flatMap list.pack.network.arcs).Perm
      (accepted.zipIdx.flatMap fun entry =>
        [entry.1.arc entry.2 false, entry.1.arc entry.2 true]) := by
  intro accepted answers list
  obtain ⟨answered, ids, nodes, edges⟩ := performAll_eq calls (empty nodeCount)
  have stored : list.edges.toList = accepted := edges
  refine ⟨answered, ids.trans List.range_eq_range'.symm, nodes, stored, list.layOut?_eq,
    fun node inside => ?_, ?_⟩
  · rw [arcs?_pack list (nodes.symm ▸ inside), arcsAt_eq, stored]
  · have both := list.arcs_perm
    rwa [stored, show list.nodeCount = nodeCount from nodes] at both

/-- A target that is no node and a length below zero are refused between two edges. -/
example : ((empty 2).performAll [.oneWay 0 0 (.finite 5), .twoWay 0 2 (.finite 5),
    .oneWay 0 1 (.finite (-5)), .twoWay 1 0 (Exact.finite 5)]).1.map Except.toOption =
    [some 0, none, none, some 1] := by
  decide

end EdgeList

end RouteSearch
