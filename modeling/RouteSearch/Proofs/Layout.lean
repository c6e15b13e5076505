/-
This file proves that the edges of a network are laid out as a packed graph: every cursor stays in
the range of its node, and every slot is written once.
-/

import RouteSearch.Network.Layout
import RouteSearch.Proofs.Network

namespace RouteSearch

section Counting

variable {A : Type}

theorem rewriteAt?_of_lt {items : Array A} {place : Nat} (inside : place < items.size)
    (change : A → A) : rewriteAt? items place change = some (items.modify place change) :=
  if_pos inside

/-- The slots among these that are listed at a node. -/
def rowAt (node : NodeId) (entries : List (NodeId × Slot)) : List Slot :=
  entries.filterMap fun entry => if entry.1 = node then some entry.2 else none

theorem rowAt_append (node : NodeId) (before after : List (NodeId × Slot)) :
    rowAt node (before ++ after) = rowAt node before ++ rowAt node after :=
  List.filterMap_append

theorem rowAt_cons (node : NodeId) (entry : NodeId × Slot) (after : List (NodeId × Slot)) :
    rowAt node (entry :: after) =
      (if entry.1 = node then [entry.2] else []) ++ rowAt node after := by
  rw [rowAt, List.filterMap_cons]
  by_cases here : entry.1 = node
  · simp [here, rowAt]
  · simp [here, rowAt]

/-- The place where the slots of a node begin: as many as the nodes before it have. -/
def startOf (entries : List (NodeId × Slot)) (node : NodeId) : Nat :=
  ((List.range node).map fun other => (rowAt other entries).length).sum

theorem startOf_succ (entries : List (NodeId × Slot)) (node : NodeId) :
    startOf entries (node + 1) = startOf entries node + (rowAt node entries).length := by
  rw [startOf, List.range_succ, List.map_append, List.sum_append]
  simp [startOf]

/-- A node's slots end where those of a later node begin, or before. -/
theorem startOf_le (entries : List (NodeId × Slot)) {node other : NodeId} (before : node < other) :
    startOf entries node + (rowAt node entries).length ≤ startOf entries other := by
  induction other, before using Nat.le_induction with
  | base => exact (startOf_succ entries node).ge
  | succ other _ ih => exact ih.trans (by rw [startOf_succ]; exact Nat.le_add_right _ _)

/-- The count of slots at each node goes up by those that are counted. -/
theorem foldlM_degrees (entries : List (NodeId × Slot)) (degrees : Array Nat)
    (inside : ∀ entry ∈ entries, entry.1 < degrees.size) :
    ∃ after, entries.foldlM (fun degrees entry => rewriteAt? degrees entry.1 (· + 1)) degrees =
        some after ∧
      ∀ node, after[node]? = degrees[node]?.map (· + (rowAt node entries).length) := by
  induction entries generalizing degrees with
  | nil => exact ⟨degrees, rfl, fun node => by simp [rowAt]⟩
  | cons entry rest ih =>
      obtain ⟨after, counted, isAfter⟩ := ih (degrees.modify entry.1 (· + 1))
        fun other member => by
          rw [Array.size_modify]
          exact inside other (List.mem_cons_of_mem _ member)
      refine ⟨after, ?_, fun node => ?_⟩
      · rw [List.foldlM_cons, rewriteAt?_of_lt (inside entry List.mem_cons_self)]
        exact counted
      · rw [isAfter, Array.getElem?_modify, rowAt_cons]
        by_cases here : entry.1 = node
        · cases degrees[node]? <;> simp [here, Nat.add_assoc, Nat.add_comm 1]
        · simp [here]

/-- The offsets add up how many slots the nodes need. -/
theorem offsets?_eq {entries : List (NodeId × Slot)} {degrees : Array Nat} {nodeCount : Nat}
    (counted : ∀ node < nodeCount, degrees[node]? = some (rowAt node entries).length) :
    ∃ offsets, offsets? degrees nodeCount = some offsets ∧ offsets.size = nodeCount + 1 ∧
      ∀ node ≤ nodeCount, offsets[node]? = some (startOf entries node) := by
  -- The nodes below `done` are added up: so far, the offsets reach up to `done`.
  have upTo (done : Nat) (inside : done ≤ nodeCount) :
      ∃ offsets, (List.range done).foldlM
          (fun (offsets : Array Nat) node => do
            let first ← offsets[node]?
            let degree ← degrees[node]?
            rewriteAt? offsets (node + 1) fun _ => first + degree)
          (Array.replicate (nodeCount + 1) 0) = some offsets ∧ offsets.size = nodeCount + 1 ∧
        ∀ node ≤ done, offsets[node]? = some (startOf entries node) := by
    induction done with
    | zero =>
        refine ⟨_, rfl, Array.size_replicate, fun node isFirst => ?_⟩
        rw [Nat.le_zero.mp isFirst]
        simp [startOf]
    | succ done ih =>
        obtain ⟨offsets, added, size, isOffset⟩ := ih (Nat.le_of_succ_le inside)
        refine ⟨offsets.modify (done + 1) fun _ => startOf entries (done + 1), ?_, ?_, ?_⟩
        · rw [List.range_succ, List.foldlM_append, added]
          simp only [List.foldlM_cons, List.foldlM_nil, Option.bind_eq_bind, Option.bind_some,
            isOffset done le_rfl, counted done inside, startOf_succ]
          rw [rewriteAt?_of_lt (by omega)]
          rfl
        · rw [Array.size_modify, size]
        · intro node atMost
          rw [Array.getElem?_modify]
          by_cases isLast : done + 1 = node
          · rw [if_pos isLast, ← isLast, Array.getElem?_eq_getElem (by omega)]
            rfl
          · rw [if_neg isLast, isOffset node (by omega)]
  exact upTo nodeCount le_rfl

/-- The slots that were written fill the ranges of their nodes from the front, and every cursor
stands behind them. -/
structure Layout.Filled (nodeCount : Nat) (entries done : List (NodeId × Slot))
    (layout : Layout) : Prop where
  cursor : ∀ node < nodeCount,
    layout.cursors[node]? = some (startOf entries node + (rowAt node done).length)
  size : layout.slots.size = startOf entries nodeCount
  slot : ∀ node < nodeCount, ∀ place < (rowAt node done).length,
    layout.slots[startOf entries node + place]? = (rowAt node done)[place]?

namespace Layout.Filled

variable {nodeCount : Nat} {entries done rest : List (NodeId × Slot)} {entry : NodeId × Slot}
  {layout : Layout}

/-- A slot that is written to the place where its node goes on touches no slot of another node, and
none that was written before. -/
theorem put (filled : Filled nodeCount entries done layout)
    (split : entries = done ++ entry :: rest) (inside : entry.1 < nodeCount) :
    ∃ next, layout.put? entry.1 entry.2 = some next ∧
      Filled nodeCount entries (done ++ [entry]) next := by
  have room : (rowAt entry.1 done).length < (rowAt entry.1 entries).length := by
    rw [split, rowAt_append, rowAt_cons]
    simp
  have row (node : NodeId) : rowAt node (done ++ [entry]) =
      rowAt node done ++ if entry.1 = node then [entry.2] else [] := by
    rw [rowAt_append, rowAt_cons]
    simp [rowAt]
  have total := startOf_le entries inside
  have atCursor := filled.cursor entry.1 inside
  have placeInside : startOf entries entry.1 + (rowAt entry.1 done).length <
      layout.slots.size := by
    rw [filled.size]
    omega
  have cursorInside := (Array.getElem?_eq_some_iff.mp atCursor).1
  refine ⟨⟨layout.cursors.modify entry.1 (· + 1), layout.slots.modify
    (startOf entries entry.1 + (rowAt entry.1 done).length) fun _ => entry.2⟩, ?_, ?_, ?_, ?_⟩
  · simp only [Layout.put?, atCursor, Option.bind_eq_bind, Option.bind_some,
      rewriteAt?_of_lt placeInside, rewriteAt?_of_lt cursorInside]
    rfl
  · intro node nodeInside
    dsimp only
    rw [Array.getElem?_modify, filled.cursor node nodeInside, row]
    by_cases here : entry.1 = node
    · simp [here, Nat.add_assoc]
    · simp [here]
  · rw [Array.size_modify, filled.size]
  · intro node nodeInside place placeInRow
    dsimp only
    rw [row] at placeInRow ⊢
    rw [Array.getElem?_modify]
    by_cases here : entry.1 = node
    · subst here
      rw [if_pos rfl] at placeInRow ⊢
      rw [List.length_append, List.length_singleton] at placeInRow
      by_cases isLast : place = (rowAt entry.1 done).length
      · rw [if_pos (by omega), isLast, Array.getElem?_eq_getElem placeInside,
          List.getElem?_concat_length]
        rfl
      · rw [if_neg (by omega), filled.slot entry.1 inside place (by omega),
          List.getElem?_append_left (by omega)]
    · rw [if_neg here, List.append_nil] at placeInRow ⊢
      -- The ranges of two nodes lie apart, whichever comes first.
      have apart : startOf entries entry.1 + (rowAt entry.1 done).length ≠
          startOf entries node + place := by
        have roomThere : (rowAt node done).length ≤ (rowAt node entries).length := by
          rw [split, rowAt_append, List.length_append]
          exact Nat.le_add_right _ _
        rcases Nat.lt_or_gt_of_ne here with before | after
        · have := startOf_le entries before
          omega
        · have := startOf_le entries after
          omega
      rw [if_neg apart, filled.slot node nodeInside place placeInRow]

/-- All slots are written. -/
theorem putAll (filled : Filled nodeCount entries done layout) (split : entries = done ++ rest)
    (inside : ∀ entry ∈ entries, entry.1 < nodeCount) :
    ∃ last, rest.foldlM (fun (layout : Layout) entry => layout.put? entry.1 entry.2) layout =
      some last ∧ Filled nodeCount entries entries last := by
  induction rest generalizing done layout with
  | nil =>
      rw [List.append_nil] at split
      exact ⟨layout, rfl, split ▸ filled⟩
  | cons entry rest ih =>
      have isEntry : entry ∈ entries := by simp [split]
      obtain ⟨next, written, onward⟩ := filled.put split (inside entry isEntry)
      obtain ⟨last, later, full⟩ := ih onward (by simp [split])
      refine ⟨last, ?_, full⟩
      rw [List.foldlM_cons, written]
      exact later

/-- In the end the slots are those of all nodes, one node after the other. -/
theorem slots_eq (filled : Filled nodeCount entries entries layout) :
    layout.slots.toList = ((List.range nodeCount).map (rowAt · entries)).flatten := by
  have upTo (node : NodeId) (inside : node ≤ nodeCount) :
      layout.slots.toList.take (startOf entries node) =
        ((List.range node).map (rowAt · entries)).flatten := by
    induction node with
    | zero => simp [startOf]
    | succ node ih =>
        have row : (layout.slots.toList.drop (startOf entries node)).take
            (rowAt node entries).length = rowAt node entries := by
          refine List.ext_getElem? fun place => ?_
          rw [List.getElem?_take]
          split
          · rename_i inRow
            rw [List.getElem?_drop, Array.getElem?_toList, filled.slot node inside place inRow]
          · rename_i beyond
            rw [List.getElem?_eq_none (Nat.le_of_not_lt beyond)]
        rw [startOf_succ, List.take_add, ih (Nat.le_of_succ_le inside), row, List.range_succ,
          List.map_append, List.flatten_append, List.map_singleton, List.flatten_singleton]
  rw [← upTo nodeCount le_rfl, ← filled.size, Array.length_toList.symm, List.take_length]

end Layout.Filled

end Counting

namespace EdgeList

variable {W : Type} [Weight W]

theorem ends_inside (list : EdgeList W) : ∀ entry ∈ list.ends, entry.1 < list.nodeCount := by
  intro entry member
  obtain ⟨⟨record, edge⟩, stored, isEnd⟩ := List.mem_flatMap.mp member
  have found : list.edges[edge]? = some record := by
    simpa using List.mem_zipIdx_iff_getElem?.mp stored
  have fits := list.fits record (Array.mem_of_getElem? found)
  simp only [List.mem_cons, List.not_mem_nil, or_false] at isEnd
  rcases isEnd with rfl | rfl
  · exact fits.source_lt
  · exact fits.target_lt

theorem rowAt_ends (list : EdgeList W) (node : NodeId) : rowAt node list.ends =
    list.edges.toList.zipIdx.flatMap fun entry => slotsAt node entry.2 entry.1 := by
  rw [rowAt, ends, List.filterMap_flatMap]
  refine List.flatMap_congr fun entry _ => ?_
  unfold slotsAt
  by_cases atSource : entry.1.source = node <;> by_cases atTarget : entry.1.target = node <;>
    simp [atSource, atTarget]

/-- The buckets hold the slots of the nodes. -/
theorem buckets_eq (list : EdgeList W) : list.buckets.toList.map Array.toList =
    (List.range list.nodeCount).map (rowAt · list.ends) := by
  refine List.ext_getElem? fun node => ?_
  rw [List.getElem?_map, List.getElem?_map, Array.getElem?_toList]
  by_cases inside : node < list.nodeCount
  · rw [list.getElem?_buckets inside, List.getElem?_range inside, Option.map_some, rowAt_ends]
  · rw [Array.getElem?_eq_none (by rw [size_buckets]; omega),
      List.getElem?_eq_none (by rw [List.length_range]; omega)]
    rfl

/-- No place is ever outside an array, and what is laid out is the packed graph. -/
theorem layOut?_eq (list : EdgeList W) : list.layOut? = some list.pack := by
  obtain ⟨degrees, counted, isDegree⟩ := foldlM_degrees list.ends
    (Array.replicate list.nodeCount 0) (by simpa using list.ends_inside)
  have degree (node : NodeId) (inside : node < list.nodeCount) :
      degrees[node]? = some (rowAt node list.ends).length := by
    rw [isDegree]
    simp [inside]
  obtain ⟨starts, added, size, isStart⟩ := offsets?_eq degree
  have blank : Layout.Filled list.nodeCount list.ends []
      ⟨starts.extract 0 list.nodeCount,
        Array.replicate (startOf list.ends list.nodeCount) ⟨0, false⟩⟩ := by
    refine ⟨fun node inside => ?_, Array.size_replicate, fun _ _ _ written => by cases written⟩
    have atNode := isStart node (Nat.le_of_lt inside)
    rw [Array.getElem?_extract, if_pos (by omega), Nat.zero_add, atNode]
    rfl
  obtain ⟨layout, written, full⟩ := blank.putAll (List.nil_append _).symm list.ends_inside
  have sameStarts : starts = list.pack.starts := by
    refine Array.ext_getElem? fun node => ?_
    rw [getElem?_starts, buckets_eq]
    by_cases inside : node ≤ list.nodeCount
    · rw [isStart node inside, if_pos inside, ← List.map_take, List.take_range,
        Nat.min_eq_left inside, List.map_map]
      rfl
    · rw [if_neg inside, Array.getElem?_eq_none (by omega)]
  have sameSlots : layout.slots = list.pack.slots := by
    rw [← Array.toList_inj, full.slots_eq, ← buckets_eq]
    exact Array.toList_flatten.symm
  simp only [layOut?, degrees?, counted, added, isStart list.nodeCount le_rfl, written,
    Option.bind_eq_bind, Option.bind_some]
  rw [sameStarts, sameSlots]
  rfl

end EdgeList

end RouteSearch
