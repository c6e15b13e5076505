/-
This file proves that the labels of a tree, its index and its queue agree at every moment of a
search, whatever its weights are.
-/

import RouteSearch.Search.Chronicle
import RouteSearch.Proofs.Calls
import Mathlib.Order.Interval.Finset.Nat

namespace RouteSearch

variable {W X S : Type} {planner : Planner W X S} {direction : Direction}
  {past : List Event} {event : Event} {tree after : SearchTree W X}

section Persistence

variable [Weight W]

theorem Weight.Lowers.trans {first middle last : W} (before : Weight.Lowers first middle)
    (after : Weight.Lowers middle last) : Weight.Lowers first last := by
  induction after with
  | same => exact before
  | again _ less bounded ih => exact .again ih less bounded

/-- All that a tree has is found again in a later one: its labels under their ids, as they were or
overwritten by cheaper ways to the same states, and its keys. -/
structure Planner.Persists (planner : Planner W X S) (tree after : SearchTree W X) : Prop where
  lookup? : ∀ {key id}, tree.lookup? key = some id → after.lookup? key = some id
  label? : ∀ {id label}, tree.label? id = some label → planner.Retains after id label

namespace Planner

theorem Retains.of_label? {id : LabelId} {label : Label W X}
    (atId : tree.label? id = some label) : planner.Retains tree id label :=
  ⟨label, atId, rfl, fun _ => rfl, .same⟩

theorem Retains.trans {id : LabelId} {label : Label W X} (before : planner.Retains tree id label)
    (later : ∀ {known}, tree.label? id = some known → planner.Retains after id known) :
    planner.Retains after id label := by
  obtain ⟨known, atId, node, edge, lowered⟩ := before
  obtain ⟨last, atLast, sameNode, sameEdge, lower⟩ := later atId
  exact ⟨last, atLast, sameNode.trans node,
    fun edgeBased => (sameEdge edgeBased).trans (edge edgeBased), lowered.trans lower⟩

theorem Persists.congr (lookups : ∀ key, after.lookup? key = tree.lookup? key)
    (labels : ∀ id, after.label? id = tree.label? id) : planner.Persists tree after where
  lookup? := (lookups _).trans
  label? atId := .of_label? ((labels _).trans atId)

theorem Persists.refl (tree : SearchTree W X) : planner.Persists tree tree :=
  .congr (fun _ => rfl) fun _ => rfl

theorem Persists.trans {middle : SearchTree W X} (before : planner.Persists tree middle)
    (later : planner.Persists middle after) : planner.Persists tree after where
  lookup? found := later.lookup? (before.lookup? found)
  label? atId := (before.label? atId).trans later.label?

/-- What an event may do to the tree of a direction: its labels and keys stay, a label is written
down over an arc, or a root is planted where nothing was. -/
inductive Alters (planner : Planner W X S) (direction : Direction) (search : Search W X S)
    (after : SearchTree W X) : Prop
  | kept (lookups : ∀ key, after.lookup? key = (search.tree direction).lookup? key)
      (labels : ∀ id, after.label? id = (search.tree direction).label? id)
  | written {parent id label made arc} (looks : planner.LooksOver direction parent label arc search)
      (writes : (search.tree direction).Writes (planner.settings.stateKind.key arc direction) made
        id after)
      (edge : made.edge = arc.edge) (weight : made.weight = planner.reachWeight direction label arc)
      (isParent : made.parent = some parent) (far : made.node = arc.far)
  | planted (blank : search.Blank)
      (roots : ∀ {id label}, after.label? id = some label → label.parent = none)

end Planner

end Persistence

/-- The labels, the index and the queue of a tree agree after the events of the past. An edge-based
root is the only label without a key, and no label leaves the queue unsettled. -/
structure Consistent (planner : Planner W X S) (direction : Direction) (past : List Event)
    (tree : SearchTree W X) : Prop where
  injective : ∀ {first second id}, tree.lookup? first = some id →
    tree.lookup? second = some id → first = second
  indexed : ∀ id, (∃ key, tree.lookup? key = some id) ↔
    id < tree.size ∧ (planner.isEdgeBased = true → id ≠ 0)
  reached : ∀ {id label parent}, tree.label? id = some label → label.parent = some parent →
    ∃ above, tree.label? parent = some above ∧ ∃ arc ∈ planner.network.arcs above.node,
      label.edge = arc.edge ∧ label.node = arc.far ∧
      tree.lookup? (planner.settings.stateKind.key arc direction) = some id
  root : ∀ {id label}, tree.label? id = some label → label.parent = none →
    id = 0 ∧ label.edge = noEdge ∧
      (planner.isEdgeBased = false → tree.lookup? label.node = some id)
  planted : ∀ {label}, tree.label? 0 = some label → ∃ ends, .planted ends ∈ past ∧
    label.node = ends.get direction
  distinct : (tree.queue.items.toList.map (·.id)).Nodup
  queued : ∀ {id weight}, ⟨id, weight⟩ ∈ tree.queue.items → ∃ label,
    tree.label? id = some label ∧ label.weight = weight
  waits : ∀ {id label}, tree.Holds id label false → ⟨id, label.weight⟩ ∈ tree.queue.items
  counted : tree.visited = past.countP (·.isPopOf direction)

namespace Consistent

/-- The key of a label in a node-based tree is its node. -/
theorem node_eq (consistent : Consistent planner direction past tree)
    (nodeBased : planner.settings.stateKind = .nodeBased) {key : StateKey} {id : LabelId}
    {label : Label W X} (found : tree.lookup? key = some id)
    (atId : tree.label? id = some label) : label.node = key := by
  cases isParent : label.parent with
  | none =>
      obtain ⟨_, _, isKey⟩ := consistent.root atId isParent
      exact consistent.injective (isKey (planner.isEdgeBased_eq_false.mpr nodeBased)) found
  | some parent =>
      obtain ⟨_, _, arc, _, _, far, isKey⟩ := consistent.reached atId isParent
      rw [nodeBased] at isKey
      exact far.trans (consistent.injective isKey found)

/-- A tree without labels is consistent. -/
theorem empty (planner : Planner W X S) (direction : Direction) :
    Consistent planner direction [] ({} : SearchTree W X) where
  injective found := by simp [SearchTree.lookup?] at found
  indexed id := by simp [SearchTree.lookup?, SearchTree.size]
  reached atId := by simp [SearchTree.label?] at atId
  root atId := by simp [SearchTree.label?] at atId
  planted atRoot := by simp [SearchTree.label?] at atRoot
  distinct := by simp
  queued member := by simp at member
  waits holds := by simp [SearchTree.Holds] at holds
  counted := rfl

/-- What happens elsewhere leaves a tree consistent. -/
theorem later (consistent : Consistent planner direction past tree)
    (elsewhere : event.isPopOf direction = false) :
    Consistent planner direction (past ++ [event]) tree where
  injective := consistent.injective
  indexed := consistent.indexed
  reached := consistent.reached
  root := consistent.root
  planted atRoot := by
    obtain ⟨ends, member, node⟩ := consistent.planted atRoot
    exact ⟨ends, List.mem_append_left _ member, node⟩
  distinct := consistent.distinct
  queued := consistent.queued
  waits := consistent.waits
  counted := by simp [consistent.counted, elsewhere]

theorem finish (consistent : Consistent planner direction past tree) (finished : Bool) :
    Consistent planner direction past (tree.finish finished) :=
  ⟨consistent.injective, consistent.indexed, consistent.reached, consistent.root,
    consistent.planted, consistent.distinct, consistent.queued, consistent.waits,
    consistent.counted⟩

/-- There are as many keys as labels, without an edge-based root. -/
theorem size_eq (consistent : Consistent planner direction past tree) (inhabited : 0 < tree.size) :
    tree.size = tree.stateCount + planner.isEdgeBased.toNat := by
  have listed {key : StateKey} : key ∈ tree.index.keys.toFinset ↔
      ∃ id, tree.lookup? key = some id := by
    rw [List.mem_toFinset, Std.HashMap.mem_keys, Std.HashMap.mem_iff_isSome_getElem?,
      Option.isSome_iff_exists]
    rfl
  have labelled {id : LabelId} : id ∈ Finset.Ico planner.isEdgeBased.toNat tree.size ↔
      ∃ key, tree.lookup? key = some id := by
    rw [consistent.indexed, Finset.mem_Ico, and_comm]
    cases planner.isEdgeBased <;> simp [Nat.one_le_iff_ne_zero]
  have count : tree.index.keys.toFinset.card =
      (Finset.Ico planner.isEdgeBased.toNat tree.size).card := by
    apply Finset.card_nbij fun key => (tree.lookup? key).getD 0
    · intro key member
      obtain ⟨id, found⟩ := listed.mp member
      simp only [found, Option.getD_some]
      exact labelled.mpr ⟨key, found⟩
    · intro first atFirst second atSecond same
      obtain ⟨id, found⟩ := listed.mp atFirst
      obtain ⟨other, foundOther⟩ := listed.mp atSecond
      simp only [found, foundOther, Option.getD_some] at same
      subst same
      exact consistent.injective found foundOther
    · intro id member
      obtain ⟨key, found⟩ := labelled.mp member
      refine ⟨key, listed.mpr ⟨id, found⟩, ?_⟩
      simp only [found, Option.getD_some]
  rw [List.toFinset_card_of_nodup Std.HashMap.nodup_keys, Std.HashMap.length_keys,
    Nat.card_Ico] at count
  have root : planner.isEdgeBased.toNat ≤ tree.size := (Bool.toNat_le _).trans inhabited
  rw [SearchTree.stateCount, count, Nat.sub_add_cancel root]

variable [Weight W]

/-- A label under the key of an arc in an edge-based tree was come to over this arc. -/
theorem over_arc (consistent : Consistent planner direction past tree)
    (network : planner.network.Lawful) (edgeBased : planner.settings.stateKind = .edgeBased)
    {node : NodeId} {arc : Arc W} (listed : arc ∈ planner.network.arcs node) {id : LabelId}
    (found : tree.lookup? (planner.settings.stateKind.key arc direction) = some id)
    {label : Label W X} (atId : tree.label? id = some label) :
    label.edge = arc.edge ∧ label.node = arc.far ∧ ∃ parent above,
      label.parent = some parent ∧ tree.label? parent = some above ∧ above.node = arc.near := by
  cases isParent : label.parent with
  | none =>
      obtain ⟨rfl, _⟩ := consistent.root atId isParent
      obtain ⟨_, notRoot⟩ := (consistent.indexed 0).mp ⟨_, found⟩
      exact absurd rfl (notRoot (planner.isEdgeBased_eq_true.mpr edgeBased))
  | some parent =>
      obtain ⟨above, atParent, other, member, edge, far, isKey⟩ :=
        consistent.reached atId isParent
      have sameKey := consistent.injective isKey found
      rw [edgeBased] at sameKey
      obtain ⟨sameEdge, sameSense⟩ := StateKind.key_eq sameKey
      obtain rfl := network.eq_of_reversed member listed sameEdge sameSense
      exact ⟨edge, far, parent, above, rfl, atParent, (network.near_eq member).symm⟩

/-- A label that the opposite direction keeps under the key of an arc was come to over the other
view of the arc, so it stands at its start. -/
theorem behind_arc (consistent : Consistent planner direction.opposite past tree)
    (network : planner.network.Lawful) (edgeBased : planner.settings.stateKind = .edgeBased)
    {node : NodeId} {arc : Arc W} (listed : arc ∈ planner.network.arcs node) {id : LabelId}
    (found : tree.lookup? (planner.settings.stateKind.key arc direction) = some id)
    {label : Label W X} (atId : tree.label? id = some label) :
    label.edge = arc.edge ∧ label.node = arc.near := by
  have flipped : planner.settings.stateKind.key arc.flip direction.opposite =
      planner.settings.stateKind.key arc direction := by
    rw [edgeBased, StateKind.key_flip, Direction.opposite_opposite]
  rw [← flipped] at found
  obtain ⟨edge, near, _⟩ :=
    consistent.over_arc network edgeBased (network.flip_mem listed) found atId
  exact ⟨edge, near⟩

/-- A label under the key of an arc stands at the end of the arc. -/
theorem far_eq (consistent : Consistent planner direction past tree)
    (network : planner.network.Lawful) {node : NodeId} {arc : Arc W}
    (listed : arc ∈ planner.network.arcs node) {id : LabelId}
    (found : tree.lookup? (planner.settings.stateKind.key arc direction) = some id)
    {label : Label W X} (atId : tree.label? id = some label) : label.node = arc.far := by
  cases kind : planner.settings.stateKind with
  | nodeBased =>
      rw [consistent.node_eq kind found atId, kind]
      rfl
  | edgeBased => exact (consistent.over_arc network kind listed found atId).2.1

/-- Roots are planted consistently where nothing was taken before. -/
theorem plant {root : Label W X} {ends : Sides NodeId}
    (isRoot : root.parent = none) (edge : root.edge = noEdge)
    (node : root.node = ends.get direction)
    (untaken : past.countP (·.isPopOf direction) = 0) :
    Consistent planner direction (past ++ [.planted ends])
      (({} : SearchTree W X).addRoot (planner.rootKey (ends.get direction)) root) := by
  have only {id : LabelId} {label : Label W X} (atId : (({} : SearchTree W X).addRoot
      (planner.rootKey (ends.get direction)) root).label? id = some label) :
      id = 0 ∧ label = root := by
    obtain ⟨settled, holds⟩ := SearchTree.holds_of_label? atId
    obtain ⟨isFirst, same, _⟩ := SearchTree.holds_addRoot.mp holds
    exact ⟨isFirst, same⟩
  have atRoot : (({} : SearchTree W X).addRoot (planner.rootKey (ends.get direction)) root).Holds
      0 root false := SearchTree.holds_addRoot.mpr ⟨rfl, rfl, rfl⟩
  have unqueued : (({} : MinQueue W).items.toList.map (·.id)).Nodup := List.nodup_nil
  have items {item : Queued W} : item ∈ ((({} : SearchTree W X).addRoot
      (planner.rootKey (ends.get direction)) root).queue).items ↔ item = ⟨0, root.weight⟩ := by
    refine (MinQueue.mem_push unqueued).trans ?_
    simp [SearchTree.size]
  constructor
  · intro first second id atFirst atSecond
    rw [(planner.lookup?_addRoot.mp atFirst).2.1, (planner.lookup?_addRoot.mp atSecond).2.1]
  · intro id
    have size : (({} : SearchTree W X).addRoot (planner.rootKey (ends.get direction)) root).size =
      1 := rfl
    simp only [planner.lookup?_addRoot, size]
    cases planner.isEdgeBased <;> simp
  · intro id label parent atId isParent
    obtain ⟨_, rfl⟩ := only atId
    rw [isRoot] at isParent
    cases isParent
  · intro id label atId _
    obtain ⟨rfl, rfl⟩ := only atId
    exact ⟨rfl, edge, fun nodeBased => planner.lookup?_addRoot.mpr ⟨nodeBased, node, rfl⟩⟩
  · intro label atId
    obtain ⟨_, rfl⟩ := only atId
    exact ⟨ends, List.mem_append_right _ (List.mem_singleton_self _), node⟩
  · exact MinQueue.push_distinct unqueued _ _
  · intro id weight member
    cases items.mp member
    exact ⟨root, atRoot.label?, rfl⟩
  · intro id label holds
    obtain ⟨rfl, rfl, _⟩ := SearchTree.holds_addRoot.mp holds
    exact items.mpr rfl
  · rw [List.countP_append, untaken]
    rfl

/-- A pop leaves a tree consistent, whether or not the label had been taken before. -/
theorem take (consistent : Consistent planner direction past tree) {id : LabelId} {seen : Bool}
    (popped : tree.pop? = some (id, seen, after)) :
    Consistent planner direction (past ++ [.popped direction]) after := by
  obtain ⟨labels, lookups⟩ := SearchTree.pop?_keeps popped
  obtain ⟨visited, size, isOpen⟩ := SearchTree.pop?_settles popped
  obtain ⟨weight, fromQueue, _, _⟩ := SearchTree.pop?_eq_some popped
  have items {item : Queued W} :
      item ∈ after.queue.items ↔ item ∈ tree.queue.items ∧ item.id ≠ id :=
    MinQueue.mem_pop? consistent.distinct fromQueue
  constructor
  · intro first second other atFirst atSecond
    rw [lookups] at atFirst atSecond
    exact consistent.injective atFirst atSecond
  · intro other
    simp only [lookups, size]
    exact consistent.indexed other
  · intro other label parent atOther isParent
    rw [labels] at atOther
    simp only [labels, lookups]
    exact consistent.reached atOther isParent
  · intro other label atOther isRoot
    rw [labels] at atOther
    simp only [lookups]
    exact consistent.root atOther isRoot
  · intro label atRoot
    rw [labels] at atRoot
    obtain ⟨ends, member, node⟩ := consistent.planted atRoot
    exact ⟨ends, List.mem_append_left _ member, node⟩
  · exact MinQueue.pop?_distinct consistent.distinct fromQueue
  · intro other otherWeight member
    rw [labels]
    exact consistent.queued (items.mp member).1
  · intro other label holds
    obtain ⟨differs, before⟩ := isOpen other label holds
    exact items.mpr ⟨consistent.waits before, differs⟩
  · rw [visited, consistent.counted]
    simp [Event.isPopOf]

section Write

variable {parent id : LabelId} {above made : Label W X} {arc : Arc W}

/-- Nothing but the label that is written to stands under its key. -/
theorem eq_key (consistent : Consistent planner direction past tree) {key other : StateKey}
    (writes : tree.Writes key made id after) (found : tree.lookup? other = some id) :
    other = key := by
  rcases writes.written with ⟨_, fresh, _⟩ | ⟨_, _, known, _⟩
  · have inside := ((consistent.indexed id).mp ⟨other, found⟩).1
    exact absurd (fresh ▸ inside) (Nat.lt_irrefl _)
  · exact consistent.injective found known

/-- No label changes its node. -/
theorem node_kept (consistent : Consistent planner direction past tree)
    (network : planner.network.Lawful) {node : NodeId} (listed : arc ∈ planner.network.arcs node)
    (writes : tree.Writes (planner.settings.stateKind.key arc direction) made id after)
    (far : made.node = arc.far) {other : LabelId} {label : Label W X}
    (atOther : tree.label? other = some label) :
    ∃ later, after.label? other = some later ∧ later.node = label.node := by
  by_cases same : other = id
  · subst same
    refine ⟨made, writes.label?, ?_⟩
    obtain ⟨settled, holds⟩ := SearchTree.holds_of_label? atOther
    rcases writes.written with ⟨_, fresh, _⟩ | ⟨_, _, known, _⟩
    · exact absurd (fresh ▸ holds.lt_size) (Nat.lt_irrefl _)
    · exact far.trans (consistent.far_eq network listed known atOther).symm
  · exact ⟨label, (writes.label?_elsewhere same).trans atOther, rfl⟩

/-- A label that is overwritten keeps its node, and in an edge-based search its edge. Its weight
is lowered. -/
theorem retains (consistent : Consistent planner direction past tree)
    (network : planner.network.Lawful) {node : NodeId} (listed : arc ∈ planner.network.arcs node)
    (writes : tree.Writes (planner.settings.stateKind.key arc direction) made id after)
    (edge : made.edge = arc.edge) (far : made.node = arc.far)
    (bounded : Weight.isInfinite made.weight = false) {other : LabelId} {label : Label W X}
    (atOther : tree.label? other = some label) : planner.Retains after other label := by
  by_cases same : other = id
  · subst same
    obtain ⟨settled, holds⟩ := SearchTree.holds_of_label? atOther
    rcases writes.written with ⟨_, fresh, _⟩ | ⟨_, _, found, held, less, _⟩
    · exact absurd (fresh ▸ holds.lt_size) (Nat.lt_irrefl _)
    obtain ⟨rfl, _⟩ := holds.unique held
    refine ⟨made, writes.label?, ?_, fun edgeBased => ?_, .again .same less bounded⟩
    · exact far.trans (consistent.far_eq network listed found atOther).symm
    · have kind := planner.isEdgeBased_eq_true.mp edgeBased
      exact edge.trans (consistent.over_arc network kind listed found atOther).1.symm
  · exact ⟨label, (writes.label?_elsewhere same).trans atOther, rfl, fun _ => rfl, .same⟩

/-- A label that is written leaves a tree consistent. -/
theorem write (consistent : Consistent planner direction past tree)
    (network : planner.network.Lawful) (atParent : tree.label? parent = some above)
    (listed : arc ∈ planner.network.arcs above.node)
    (writes : tree.Writes (planner.settings.stateKind.key arc direction) made id after)
    (edge : made.edge = arc.edge) (isParent : made.parent = some parent)
    (far : made.node = arc.far) : Consistent planner direction past after := by
  obtain ⟨_, parentHolds⟩ := SearchTree.holds_of_label? atParent
  have inhabited : 0 < tree.size := Nat.zero_lt_of_lt parentHolds.lt_size
  have items {item : Queued W} : item ∈ after.queue.items ↔
      item = ⟨id, made.weight⟩ ∨ item ∈ tree.queue.items ∧ item.id ≠ id := by
    rw [writes.queue]
    exact MinQueue.mem_push consistent.distinct
  have nodes {other : LabelId} {label : Label W X} (atOther : tree.label? other = some label) :=
    consistent.node_kept network listed writes far atOther
  constructor
  · intro first second place atFirst atSecond
    rw [writes.lookup?] at atFirst atSecond
    split at atFirst <;> split at atSecond
    case isTrue.isTrue isFirst isSecond => rw [isFirst, isSecond]
    case isTrue.isFalse isFirst isOther =>
      exact absurd (consistent.eq_key writes (Option.some.inj atFirst ▸ atSecond)) isOther
    case isFalse.isTrue isOther isSecond =>
      exact absurd (consistent.eq_key writes (Option.some.inj atSecond ▸ atFirst)) isOther
    case isFalse.isFalse => exact consistent.injective atFirst atSecond
  · intro other
    rw [writes.indexed_iff, consistent.indexed]
    rcases writes.written with ⟨_, fresh, _, grown⟩ | ⟨_, _, known, _, _, _, same⟩
    · have notRoot : id ≠ 0 := Nat.ne_of_gt (fresh ▸ inhabited)
      rw [SearchTree.size, SearchTree.size, grown, Nat.lt_succ_iff_lt_or_eq, ← fresh]
      constructor
      · rintro (rfl | ⟨before, differs⟩)
        · exact ⟨.inr rfl, fun _ => notRoot⟩
        · exact ⟨.inl before, differs⟩
      · rintro ⟨before | rfl, differs⟩
        · exact .inr ⟨before, differs⟩
        · exact .inl rfl
    · have inside := (consistent.indexed id).mp ⟨_, known⟩
      simp only [SearchTree.size, same] at inside ⊢
      constructor
      · rintro (rfl | before)
        · exact inside
        · exact before
      · exact .inr
  · intro other label parent atOther isAbove
    rcases writes.label?_cases atOther with ⟨rfl, rfl⟩ | ⟨_, before⟩
    · rw [isParent, Option.some.injEq] at isAbove
      subst isAbove
      obtain ⟨later, atLater, node⟩ := nodes atParent
      exact ⟨later, atLater, arc, node ▸ listed, edge, far, writes.indexed⟩
    · obtain ⟨older, atOlder, other, member, sameEdge, sameNode, found⟩ :=
        consistent.reached before isAbove
      obtain ⟨later, atLater, node⟩ := nodes atOlder
      exact ⟨later, atLater, other, node ▸ member, sameEdge, sameNode,
        writes.lookup?_mono found⟩
  · intro other label atOther isRoot
    rcases writes.label?_cases atOther with ⟨rfl, rfl⟩ | ⟨_, before⟩
    · rw [isParent] at isRoot
      cases isRoot
    · obtain ⟨isFirst, noArc, isKey⟩ := consistent.root before isRoot
      exact ⟨isFirst, noArc, fun nodeBased => writes.lookup?_mono (isKey nodeBased)⟩
  · intro label atRoot
    obtain ⟨root, _, rootHolds⟩ := SearchTree.holds_of_lt inhabited
    obtain ⟨later, atLater, node⟩ := nodes rootHolds.label?
    obtain rfl := Option.some.inj (atLater.symm.trans atRoot)
    rw [node]
    exact consistent.planted rootHolds.label?
  · rw [writes.queue]
    exact MinQueue.push_distinct consistent.distinct _ _
  · intro other weight member
    rcases items.mp member with isNew | ⟨before, differs⟩
    · cases isNew
      exact ⟨made, writes.label?, rfl⟩
    · rw [writes.label?_elsewhere differs]
      exact consistent.queued before
  · intro other label holds
    rcases writes.label?_cases holds.label? with ⟨rfl, rfl⟩ | ⟨differs, _⟩
    · exact items.mpr (.inl rfl)
    · refine items.mpr (.inr ⟨consistent.waits ?_, differs⟩)
      exact (writes.elsewhere _ differs).symm.trans holds
  · exact writes.visited.trans consistent.counted

end Write

end Consistent

/-- What holds at every moment of a search: its trees are consistent, and they are empty until the
roots of a query are planted. -/
structure Coherent (planner : Planner W X S) (past : List Event) (search : Search W X S) :
    Prop where
  trees : ∀ side, Consistent planner side past (search.tree side)
  blank : search.seeded = false → search.Blank
  rooted : search.seeded = true → ∀ side, 0 < (search.tree side).size

namespace Coherent

variable {search next : Search W X S}

/-- A change in the tree of one direction is of no concern to the other. -/
theorem change (coherent : Coherent planner past search)
    (here : Consistent planner direction (past ++ [event]) (next.tree direction))
    (there : next.tree direction.opposite = search.tree direction.opposite)
    (elsewhere : event.isPopOf direction.opposite = false)
    (seeded : next.seeded = search.seeded) (blank : search.seeded = false → next.Blank)
    (inhabited : (search.tree direction).size ≤ (next.tree direction).size) :
    Coherent planner (past ++ [event]) next where
  trees side := by
    rcases Direction.eq_or_opposite direction side with rfl | rfl
    · exact here
    · rw [there]
      exact (coherent.trees _).later elsewhere
  blank unseeded := blank (seeded ▸ unseeded)
  rooted planted side := by
    rw [seeded] at planted
    rcases Direction.eq_or_opposite direction side with rfl | rfl
    · exact Nat.lt_of_lt_of_le (coherent.rooted planted _) inhabited
    · rw [there]
      exact coherent.rooted planted _

/-- No tree has a label before a query is begun. -/
theorem begun (coherent : Coherent planner past search) {id : LabelId} {label : Label W X}
    (atId : (search.tree direction).label? id = some label) : search.seeded ≠ false := by
  intro unseeded
  obtain ⟨finished, empty⟩ := (coherent.blank unseeded).trees direction
  rw [empty] at atId
  simp [SearchTree.finish, SearchTree.label?] at atId

variable [Weight W]

/-- Looking over an arc writes down a label that stands at its end. -/
theorem record (coherent : Coherent planner past search) (network : planner.network.Lawful)
    (maker : planner.maker.Lawful) {parent id : LabelId} {label : Label W X} {arc : Arc W}
    (looks : planner.LooksOver direction parent label arc search)
    (recorded : planner.record direction parent arc (planner.reachWeight direction label arc)
      search = some (id, next)) :
    ∃ made, (search.tree direction).Writes (planner.settings.stateKind.key arc direction) made id
        (next.tree direction) ∧
      made.edge = arc.edge ∧ made.weight = planner.reachWeight direction label arc ∧
      made.parent = some parent ∧ made.node = arc.far := by
  obtain ⟨made, tree, makerState, updates, rfl, writes, edge, weight, isParent, node⟩ :=
    planner.record_eq_some maker recorded
  have here : Search.tree { search.withTree direction tree with
      makerState := makerState
      updates := updates } direction = tree := Sides.get_set _ _ _
  rw [here]
  refine ⟨made, writes, edge, weight, isParent, ?_⟩
  rcases node with far | ⟨known, found, atId, same⟩
  · exact far
  · exact same.trans ((coherent.trees direction).far_eq network looks.listed found atId)

/-- A label that is written down leaves a search coherent. -/
theorem recorded (coherent : Coherent planner past search) (network : planner.network.Lawful)
    (maker : planner.maker.Lawful) {parent id : LabelId} {label : Label W X} {arc : Arc W}
    (looks : planner.LooksOver direction parent label arc search)
    (recorded : planner.record direction parent arc (planner.reachWeight direction label arc)
      search = some (id, next)) (unpopped : ∀ side, event.isPopOf side = false) :
    Coherent planner (past ++ [event]) next := by
  obtain ⟨above, atParent, sameNode, _⟩ := looks.retained
  obtain ⟨made, writes, edge, _, isParent, far⟩ := coherent.record network maker looks recorded
  have touches := planner.record_touches recorded
  have written := (coherent.trees direction).write network atParent (sameNode ▸ looks.listed)
    writes edge isParent far
  refine coherent.change (written.later (unpopped _)) touches.there (unpopped _) touches.seeded
    (fun unseeded => absurd unseeded (coherent.begun atParent)) ?_
  unfold SearchTree.size
  rcases writes.written with ⟨_, _, _, grown⟩ | ⟨_, _, _, _, _, _, same⟩
  · rw [grown]
    exact Nat.le_succ _
  · rw [same]

/-- Every event leaves a search coherent. -/
theorem fires (coherent : Coherent planner past search) (network : planner.network.Lawful)
    (maker : planner.maker.Lawful) (fires : planner.Fires search event next) :
    Coherent planner (past ++ [event]) next := by
  cases fires with
  | @plant source target sourceWeight targetWeight now accepted =>
      have blank := coherent.blank (planner.unseeded_of_check accepted)
      have planted := blank.planted_tree maker ⟨source, target⟩ ⟨sourceWeight, targetWeight⟩ now
      have frame := planner.planted_frame source sourceWeight target targetWeight now search
      refine ⟨fun side => ?_, fun unseeded => ?_, fun _ side => ?_⟩
      · obtain ⟨payload, finished, isPlanted⟩ := planted side
        obtain ⟨_, empty⟩ := blank.trees side
        have untaken := (coherent.trees side).counted
        rw [empty] at untaken
        rw [isPlanted]
        exact (Consistent.plant rfl rfl rfl untaken.symm).finish finished
      · rw [frame.1] at unseeded
        cases unseeded
      · obtain ⟨payload, finished, isPlanted⟩ := planted side
        rw [isPlanted]
        exact Nat.zero_lt_one
  | @pop direction id seen tree popped =>
      have taken := (coherent.trees direction).take popped
      rw [← search.tree_withTree direction tree] at taken
      refine coherent.change taken (search.tree_opposite_withTree _ _) ?_ rfl
        (fun unseeded => ?_) ?_
      · cases direction <;> rfl
      · rw [(coherent.blank unseeded).pop? direction] at popped
        cases popped
      · rw [Search.tree_withTree]
        exact (SearchTree.pop?_settles popped).2.1.ge
  | insert looks unknown recorded =>
      exact coherent.recorded network maker looks recorded fun _ => rfl
  | improve looks known recorded =>
      exact coherent.recorded network maker looks recorded fun _ => rfl
  | @meet direction node arc id tracks listed indexed =>
      obtain ⟨best, meetings, met⟩ := planner.meet_eq direction arc id search
      obtain ⟨inside, _⟩ := ((coherent.trees direction).indexed id).mp ⟨_, indexed⟩
      obtain ⟨label, _, holds⟩ := SearchTree.holds_of_lt inside
      rw [met]
      exact coherent.change ((coherent.trees direction).later rfl) rfl rfl rfl
        (fun unseeded => absurd unseeded (coherent.begun holds.label?)) le_rfl
  | finish direction =>
      have finished : Consistent planner direction (past ++ [.finished direction])
          ((search.tree direction).finish true) :=
        ((coherent.trees direction).later rfl).finish true
      rw [← search.tree_withTree direction (SearchTree.finish _ _)] at finished
      refine coherent.change finished (search.tree_opposite_withTree _ _) rfl rfl
        (fun unseeded => (coherent.blank unseeded).finish direction) ?_
      rw [Search.tree_withTree]
      exact le_rfl
  | aside trees best seeded =>
      have same (side : Direction) : next.tree side = search.tree side :=
        congrArg (Sides.get · side) trees
      refine ⟨fun side => ?_, fun unseeded => ?_, fun planted side => ?_⟩
      · rw [same]
        exact (coherent.trees side).later rfl
      · obtain ⟨empty, none⟩ := coherent.blank (seeded ▸ unseeded)
        exact ⟨fun side => (empty side).imp fun _ => (same side).trans, best.trans none⟩
      · rw [same]
        exact coherent.rooted (seeded ▸ planted) side

/-- What an event does to the tree of each direction. -/
theorem alters (coherent : Coherent planner past search) (network : planner.network.Lawful)
    (maker : planner.maker.Lawful) (fires : planner.Fires search event next) (side : Direction) :
    planner.Alters side search (next.tree side) := by
  have recorded {direction : Direction} {parent written : LabelId} {label : Label W X}
      {arc : Arc W} (looks : planner.LooksOver direction parent label arc search)
      (isRecorded : planner.record direction parent arc
        (planner.reachWeight direction label arc) search = some (written, next)) :
      planner.Alters side search (next.tree side) := by
    rcases Direction.eq_or_opposite direction side with rfl | rfl
    · obtain ⟨made, writes, edge, weight, isParent, far⟩ :=
        coherent.record network maker looks isRecorded
      exact .written looks writes edge weight isParent far
    · rw [(planner.record_touches isRecorded).there]
      exact .kept (fun _ => rfl) fun _ => rfl
  cases fires with
  | @plant source target sourceWeight targetWeight now accepted =>
      have blank := coherent.blank (planner.unseeded_of_check accepted)
      obtain ⟨payload, finished, isPlanted⟩ := blank.planted_tree maker ⟨source, target⟩
        ⟨sourceWeight, targetWeight⟩ now side
      refine .planted blank fun {id label} atId => ?_
      rw [isPlanted] at atId
      obtain ⟨settled, holds⟩ := SearchTree.holds_of_label? atId
      have key := planner.rootKey ((Sides.mk source target).get side)
      obtain ⟨_, rfl, _⟩ := (@SearchTree.holds_addRoot W X _ key _ label id settled).mp holds
      rfl
  | @pop direction id seen tree popped =>
      rcases Direction.eq_or_opposite direction side with rfl | rfl
      · obtain ⟨labels, lookups⟩ := SearchTree.pop?_keeps popped
        rw [Search.tree_withTree]
        exact .kept lookups labels
      · rw [Search.tree_opposite_withTree]
        exact .kept (fun _ => rfl) fun _ => rfl
  | insert looks unknown isRecorded => exact recorded looks isRecorded
  | improve looks known isRecorded => exact recorded looks isRecorded
  | @meet direction node arc id tracks listed indexed =>
      obtain ⟨best, meetings, met⟩ := planner.meet_eq direction arc id search
      rw [met]
      exact .kept (fun _ => rfl) fun _ => rfl
  | finish direction =>
      rcases Direction.eq_or_opposite direction side with rfl | rfl
      · rw [Search.tree_withTree]
        exact .kept (fun _ => rfl) fun _ => rfl
      · rw [Search.tree_opposite_withTree]
        exact .kept (fun _ => rfl) fun _ => rfl
  | aside trees best seeded =>
      rw [Search.tree, trees]
      exact .kept (fun _ => rfl) fun _ => rfl

/-- An event leaves all labels to be found again. -/
theorem persists (coherent : Coherent planner past search) (network : planner.network.Lawful)
    (maker : planner.maker.Lawful) (fires : planner.Fires search event next) (side : Direction) :
    planner.Persists (search.tree side) (next.tree side) := by
  cases coherent.alters network maker fires side with
  | kept lookups labels => exact .congr lookups labels
  | written looks writes edge weight isParent far =>
      exact ⟨writes.lookup?_mono, (coherent.trees side).retains network looks.listed writes edge far
        (weight ▸ looks.bounded)⟩
  | planted blank roots =>
      obtain ⟨finished, empty⟩ := blank.trees side
      rw [empty]
      refine ⟨fun found => ?_, fun atId => ?_⟩
      · simp [SearchTree.finish, SearchTree.lookup?] at found
      · simp [SearchTree.finish, SearchTree.label?] at atId

end Coherent

/-- A search is coherent at every moment after it was created. -/
theorem Planner.Chronicle.coherent [Weight W] (network : planner.network.Lawful)
    (maker : planner.maker.Lawful) {makerState : S} {search : Search W X S}
    (chronicle : planner.Chronicle (.fresh makerState) past search) :
    Coherent planner past search := by
  induction chronicle with
  | start =>
      refine ⟨fun side => ?_, fun _ => ⟨fun side => ⟨false, ?_⟩, rfl⟩, nofun⟩
      · cases side <;> exact .empty planner _
      · cases side <;> rfl
  | next before fires ih => exact ih.fires network maker fires

end RouteSearch
