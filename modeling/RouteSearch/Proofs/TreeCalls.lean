/-
This file proves that the record of what came of the calls to a search tree tells what its queue
holds, what it takes next, and where its index leads.
-/

import RouteSearch.SearchTree.TreeCall
import RouteSearch.Proofs.SearchTree
import RouteSearch.Proofs.DoubleOrder

namespace RouteSearch

section Record

variable {Event Key Value : Type} [DecidableEq Key] {note : Event → Option (Key × Value)}

@[simp] theorem lastNoted_nil (key : Key) : lastNoted note [] key = none := rfl

theorem lastNoted_concat (past : List Event) (event : Event) (key : Key) :
    lastNoted note (past ++ [event]) key =
      match note event with
      | none => lastNoted note past key
      | some (noted, value) => if key = noted then some value else lastNoted note past key := by
  unfold lastNoted
  rw [List.filterMap_append, List.reverse_append]
  cases atEvent : note event with
  | none => simp [atEvent]
  | some pair =>
      obtain ⟨noted, value⟩ := pair
      by_cases same : key = noted
      · simp [atEvent, same]
      · simp [atEvent, List.lookup, same, beq_eq_false_iff_ne.mpr same]

/-- An event of which nothing is noted changes nothing. -/
theorem lastNoted_skip {event : Event} (skipped : note event = none) (past : List Event)
    (key : Key) : lastNoted note (past ++ [event]) key = lastNoted note past key := by
  rw [lastNoted_concat, skipped]

end Record

namespace SearchTree

variable {W X : Type}

section Operations

variable [Weight W] {tree after : SearchTree W X} {id : LabelId} {label : Label W X}

theorem kept_add (key : Option StateKey) (other : LabelId) :
    (tree.add key label).kept[other]? =
      if other = tree.size then some ⟨label, false⟩ else tree.kept[other]? :=
  Array.getElem?_push

theorem size_add (key : Option StateKey) : (tree.add key label).size = tree.size + 1 :=
  Array.size_push ..

theorem lookup?_add (key : Option StateKey) (other : StateKey) :
    (tree.add key label).lookup? other =
      if key = some other then some tree.size else tree.lookup? other := by
  cases key with
  | none => rfl
  | some key =>
      simp only [lookup?, add, Std.HashMap.getElem?_insert, beq_iff_eq, Option.some.injEq]

omit [Weight W] in
theorem kept_setLabel (other : LabelId) :
    (tree.setLabel id label).kept[other]? =
      if id = other then tree.kept[other]?.map fun kept => { kept with label := label }
      else tree.kept[other]? :=
  Array.getElem?_modify

theorem reopen_of_label? (found : tree.label? id = some label) :
    tree.reopen id = { tree with queue := tree.queue.push id label.weight } := by
  rw [reopen, found]

/-- A pop settles the label that it takes, and no other one. -/
theorem settled_pop? {seen : Bool} (popped : tree.pop? = some (id, seen, after))
    (inside : id < tree.size) (other : LabelId) :
    after.kept[other]?.any (·.settled) = (tree.kept[other]?.any (·.settled) || id == other) := by
  unfold pop? at popped
  split at popped
  · cases popped
  · simp only [Option.some.injEq, Prod.mk.injEq] at popped
    obtain ⟨rfl, _, rfl⟩ := popped
    rw [Array.getElem?_modify]
    split
    · rename_i same
      rw [← same, Array.getElem?_eq_getElem inside]
      simp
    · rename_i differs
      simp [differs]

end Operations

open TreeEvent

variable [Weight W]

/-- The tree is as the record of events tells. -/
structure Tracked (past : List (TreeEvent W)) (tree : SearchTree W X) : Prop where
  valid : tree.queue.Valid
  inside : ∀ item ∈ tree.queue.items, item.id < tree.size
  queued : ∀ item, item ∈ tree.queue.items ↔
    lastNoted queueNote past item.id = some (some item.weight)
  settled : ∀ id, tree.kept[id]?.any (·.settled) = past.any (takes id)
  weighed : ∀ id, (tree.label? id).map (·.weight) = lastNoted weightNote past id
  indexed : ∀ key, tree.lookup? key = lastNoted keyNote past key
  size_eq : tree.size = past.countP isEntry
  visited_eq : tree.visited = past.countP isTaking

namespace Tracked

variable {past : List (TreeEvent W)} {tree after : SearchTree W X} {id : LabelId}
  {label : Label W X}

theorem empty : Tracked [] ({} : SearchTree W X) where
  valid := .empty
  inside := by simp
  queued := by simp
  settled := by simp
  weighed := by simp [label?]
  indexed := by simp [lookup?]
  size_eq := rfl
  visited_eq := rfl

/-- An event of the queue alone leaves everything else as it was recorded. -/
theorem withQueue (tracked : Tracked past tree) {event : TreeEvent W} {queue : MinQueue W}
    (quiet : event = .nothing ∨ ∃ id weight, event = .reopened id weight) (valid : queue.Valid)
    (inside : ∀ item ∈ queue.items, item.id < tree.size)
    (queued : ∀ item, item ∈ queue.items ↔
      lastNoted queueNote (past ++ [event]) item.id = some (some item.weight)) :
    Tracked (past ++ [event]) { tree with queue := queue } := by
  obtain ⟨weight, key, taking, counts⟩ : weightNote event = none ∧ keyNote event = none ∧
      (∀ id, takes id event = false) ∧ isEntry event = false ∧ isTaking event = false := by
    rcases quiet with rfl | ⟨_, _, rfl⟩ <;> exact ⟨rfl, rfl, fun _ => rfl, rfl, rfl⟩
  exact
    { valid := valid
      inside := inside
      queued := queued
      settled := by simpa [taking] using tracked.settled
      weighed := by
        intro other
        rw [lastNoted_skip weight]
        exact tracked.weighed other
      indexed := by
        intro other
        rw [lastNoted_skip key]
        exact tracked.indexed other
      size_eq := by
        rw [List.countP_append, List.countP_singleton, counts.1]
        exact tracked.size_eq
      visited_eq := by
        rw [List.countP_append, List.countP_singleton, counts.2]
        exact tracked.visited_eq }

theorem nothing (tracked : Tracked past tree) : Tracked (past ++ [.nothing]) tree := by
  refine tracked.withQueue (.inl rfl) tracked.valid tracked.inside fun item => ?_
  rw [lastNoted_skip rfl]
  exact tracked.queued item

theorem replace (tracked : Tracked past tree) (found : (tree.label? id).isSome = true) :
    Tracked (past ++ [.replaced id label.weight]) (tree.setLabel id label) where
  valid := tracked.valid
  inside := by simpa [setLabel, SearchTree.size] using tracked.inside
  queued item := by
    rw [lastNoted_skip rfl]
    exact tracked.queued item
  settled other := by
    rw [List.any_append, ← tracked.settled other, kept_setLabel]
    by_cases same : id = other
    · rw [if_pos same]
      cases tree.kept[other]? <;> simp [takes]
    · rw [if_neg same]
      exact (Bool.or_false _).symm
  weighed other := by
    rw [lastNoted_concat, ← tracked.weighed other, label?, kept_setLabel]
    by_cases same : id = other
    · subst same
      obtain ⟨kept, atId⟩ := Option.isSome_iff_exists.mp (Option.isSome_map ▸ found)
      simp [weightNote, atId]
    · simp [weightNote, same, Ne.symm same, label?]
  indexed key := by
    rw [lastNoted_skip rfl]
    exact tracked.indexed key
  size_eq := by
    rw [List.countP_append, ← tracked.size_eq]
    exact Array.size_modify
  visited_eq := by
    rw [List.countP_append, ← tracked.visited_eq]
    rfl

/-- After a push the queue holds the new item, and those that it held under other ids. -/
theorem queued_push (tracked : Tracked past tree) (weight : W) (item : Queued W) :
    item ∈ (tree.queue.push id weight).items ↔
      (if item.id = id then some (some weight) else lastNoted queueNote past item.id) =
        some (some item.weight) := by
  rw [MinQueue.mem_push tracked.valid.distinct, tracked.queued]
  obtain ⟨other, otherWeight⟩ := item
  by_cases same : other = id
  · simp [same, eq_comm]
  · simp [same]

/-- A push of an id below a bound keeps all queued ids below it. -/
theorem inside_push (tracked : Tracked past tree) {bound : Nat} (enough : tree.size ≤ bound)
    (inside : id < bound) (weight : W) :
    ∀ item ∈ (tree.queue.push id weight).items, item.id < bound := by
  intro item member
  rcases (MinQueue.mem_push tracked.valid.distinct).mp member with rfl | ⟨member, _⟩
  · exact inside
  · exact (tracked.inside item member).trans_le enough

variable [RankedWeight W]

theorem add (tracked : Tracked past tree) (key : Option StateKey) :
    Tracked (past ++ [.entered tree.size key label.weight]) (tree.add key label) where
  valid := tracked.valid.push _ _
  inside := by
    rw [size_add]
    exact tracked.inside_push (Nat.le_succ _) (Nat.lt_succ_self _) _
  queued item := by
    rw [lastNoted_concat]
    exact tracked.queued_push _ item
  settled other := by
    rw [List.any_append, ← tracked.settled other, kept_add]
    by_cases same : other = tree.size
    · simp [same, SearchTree.size, takes]
    · simp [same, takes]
  weighed other := by
    rw [lastNoted_concat, ← tracked.weighed other, label?, kept_add]
    by_cases same : other = tree.size
    · simp [same, weightNote]
    · simp [same, weightNote, label?]
  indexed other := by
    rw [lastNoted_concat, ← tracked.indexed other, lookup?_add]
    cases key <;> simp [keyNote, eq_comm]
  size_eq := by
    rw [List.countP_append, ← tracked.size_eq]
    exact size_add key
  visited_eq := by
    rw [List.countP_append, ← tracked.visited_eq]
    rfl

theorem reopen (tracked : Tracked past tree) (found : tree.label? id = some label) :
    Tracked (past ++ [.reopened id label.weight]) (tree.reopen id) := by
  obtain ⟨_, holds⟩ := holds_of_label? found
  rw [reopen_of_label? found]
  refine tracked.withQueue (.inr ⟨id, label.weight, rfl⟩) (tracked.valid.push _ _)
    (tracked.inside_push le_rfl holds.lt_size _) fun item => ?_
  rw [lastNoted_concat]
  exact tracked.queued_push _ item

theorem pop? {seen : Bool} (tracked : Tracked past tree)
    (popped : tree.pop? = some (id, seen, after)) :
    Tracked (past ++ [.taken id seen]) after := by
  obtain ⟨weight, taken, _, _⟩ := pop?_eq_some popped
  obtain ⟨labels, index⟩ := pop?_keeps popped
  obtain ⟨visited, size, _⟩ := pop?_settles popped
  have left (item : Queued W) :
      item ∈ after.queue.items ↔ item ∈ tree.queue.items ∧ item.id ≠ id :=
    MinQueue.mem_pop? tracked.valid.distinct taken
  have inside := tracked.inside _ (Array.mem_of_getElem? (MinQueue.pop?_eq_some taken).1)
  exact
    { valid := (tracked.valid.pop? taken).1
      inside := by
        intro item member
        rw [size]
        exact tracked.inside item ((left item).mp member).1
      queued := by
        intro item
        rw [left, tracked.queued, lastNoted_concat]
        by_cases same : item.id = id <;> simp [same, queueNote]
      settled := by
        intro other
        rw [List.any_append, ← tracked.settled other, settled_pop? popped inside]
        simp [takes]
      weighed := by
        intro other
        rw [lastNoted_skip rfl, labels]
        exact tracked.weighed other
      indexed := by
        intro key
        rw [lastNoted_skip rfl, index]
        exact tracked.indexed key
      size_eq := by
        rw [List.countP_append, ← tracked.size_eq]
        exact size
      visited_eq := by
        rw [List.countP_append, ← tracked.visited_eq]
        exact visited }

theorem perform (tracked : Tracked past tree) (call : TreeCall W X) :
    Tracked (past ++ [(tree.perform call).1]) (tree.perform call).2 := by
  cases call with
  | addRoot key label => exact { tracked.add key with }
  | add key label => exact tracked.add (some key)
  | replace id label =>
      simp only [SearchTree.perform]
      cases found : tree.label? id with
      | none => exact tracked.nothing
      | some known => exact tracked.replace (by rw [found]; rfl)
  | reopen id =>
      simp only [SearchTree.perform]
      cases found : tree.label? id with
      | none => exact tracked.nothing
      | some label => exact tracked.reopen found
  | pop =>
      simp only [SearchTree.perform]
      cases popped : tree.pop? with
      | none => exact tracked.nothing
      | some taking => exact tracked.pop? popped

theorem performAll (tracked : Tracked past tree) (calls : List (TreeCall W X)) :
    Tracked (past ++ (tree.performAll calls).1) (tree.performAll calls).2 := by
  induction calls generalizing past tree with
  | nil => simpa [SearchTree.performAll] using tracked
  | cons call calls ih =>
      have rest := ih (tracked.perform call)
      rwa [List.append_assoc] at rest

end Tracked

section Queue

variable {past : List (TreeEvent W)} {tree after : SearchTree W X} {id : LabelId}

omit [Weight W] in
theorem mem_openLabels {item : Queued W} :
    item ∈ openLabels past ↔
      item.id < past.countP isEntry ∧
        lastNoted queueNote past item.id = some (some item.weight) := by
  unfold openLabels
  rw [List.mem_filterMap]
  constructor
  · rintro ⟨id, entered, noted⟩
    obtain ⟨weight, joined, rfl⟩ := Option.map_eq_some_iff.mp noted
    exact ⟨List.mem_range.mp entered, Option.join_eq_some_iff.mp joined⟩
  · rintro ⟨entered, noted⟩
    exact ⟨item.id, List.mem_range.mpr entered, by rw [noted]; rfl⟩

omit [Weight W] in
theorem nodup_openLabels : (openLabels past).Nodup := by
  refine List.Nodup.filterMap ?_ List.nodup_range
  intro first second item atFirst atSecond
  obtain ⟨_, _, rfl⟩ := Option.map_eq_some_iff.mp atFirst
  obtain ⟨_, _, same⟩ := Option.map_eq_some_iff.mp atSecond
  exact (congrArg Queued.id same).symm

/-- The queue holds the open labels, each once and with the weight it was last put in with. -/
theorem Tracked.queue_perm (tracked : Tracked past tree) :
    tree.queue.items.toList.Perm (openLabels past) := by
  refine (List.perm_ext_iff_of_nodup tracked.valid.distinct.of_map nodup_openLabels).mpr ?_
  intro item
  rw [Array.mem_toList_iff, mem_openLabels, ← tracked.size_eq, ← tracked.queued]
  exact ⟨fun member => ⟨tracked.inside item member, member⟩, And.right⟩

theorem Tracked.openLabels_eq_nil (tracked : Tracked past tree) :
    openLabels past = [] ↔ tree.queue.items = #[] := by
  rw [← Array.toList_eq_nil_iff]
  exact ⟨fun none => List.Perm.eq_nil (none ▸ tracked.queue_perm),
    fun empty => List.Perm.eq_nil (empty ▸ tracked.queue_perm.symm)⟩

theorem Tracked.nextWeight?_eq_none (tracked : Tracked past tree) :
    tree.nextWeight? = none ↔ openLabels past = [] := by
  rw [tracked.openLabels_eq_nil, nextWeight?, Option.map_eq_none_iff, MinQueue.peek?,
    Array.getElem?_eq_none_iff, Nat.le_zero, Array.size_eq_zero_iff]

theorem Tracked.pop?_eq_none (tracked : Tracked past tree) :
    tree.pop? = none ↔ openLabels past = [] := by
  rw [tracked.openLabels_eq_nil, ← MinQueue.pop?_eq_none, SearchTree.pop?]
  cases tree.queue.pop? <;> simp

theorem Tracked.perform_reopen (tracked : Tracked past tree) {weight : W}
    (given : lastNoted weightNote past id = some weight) :
    (tree.perform (.reopen id)).1 = .reopened id weight := by
  rw [← tracked.weighed id] at given
  obtain ⟨label, found, rfl⟩ := Option.map_eq_some_iff.mp given
  simp only [SearchTree.perform, found]

variable [RankedWeight W]

/-- The first item is an open label that no other one precedes. -/
theorem Tracked.first (tracked : Tracked past tree) {first : Queued W}
    (atTop : tree.queue.items[0]? = some first) :
    first ∈ openLabels past ∧
      ∀ item ∈ openLabels past, Weight.precedes item.weight first.weight = false := by
  refine ⟨tracked.queue_perm.mem_iff.mp (Array.mem_toList_iff.mpr (Array.mem_of_getElem? atTop)),
    fun item member => ?_⟩
  have queued := Array.mem_toList_iff.mp (tracked.queue_perm.mem_iff.mpr member)
  obtain ⟨place, atPlace⟩ := Array.getElem?_of_mem queued
  exact tracked.valid.heaped.first place first atTop item atPlace

theorem Tracked.nextWeight?_least (tracked : Tracked past tree) {weight : W}
    (next : tree.nextWeight? = some weight) :
    (∃ item ∈ openLabels past, item.weight = weight) ∧
      ∀ item ∈ openLabels past, Weight.precedes item.weight weight = false := by
  obtain ⟨first, atTop, rfl⟩ := Option.map_eq_some_iff.mp next
  obtain ⟨member, least⟩ := tracked.first atTop
  exact ⟨⟨first, member, rfl⟩, least⟩

/-- A pop takes an open label that no other one precedes out of the queue, and tells whether it
took the label before. -/
theorem Tracked.pop?_least (tracked : Tracked past tree) {again : Bool}
    (popped : tree.pop? = some (id, again, after)) :
    (∃ item ∈ openLabels past, item.id = id ∧ tree.nextWeight? = some item.weight ∧
      ∀ other ∈ openLabels past, Weight.precedes other.weight item.weight = false) ∧
    after.queue.items.toList.Perm ((openLabels past).filter (·.id != id)) ∧
    again = past.any (takes id) := by
  obtain ⟨weight, taken, told, _⟩ := pop?_eq_some popped
  have atTop := (MinQueue.pop?_eq_some taken).1
  obtain ⟨member, least⟩ := tracked.first atTop
  refine ⟨⟨_, member, rfl, ?_, least⟩, ?_, told.trans (tracked.settled id)⟩
  · rw [nextWeight?, MinQueue.peek?, atTop]
    rfl
  · have rest := (tracked.pop? popped).valid.distinct.of_map
    refine (List.perm_ext_iff_of_nodup rest (nodup_openLabels.filter _)).mpr fun item => ?_
    rw [Array.mem_toList_iff, MinQueue.mem_pop? tracked.valid.distinct taken, List.mem_filter,
      ← tracked.queue_perm.mem_iff, Array.mem_toList_iff, bne_iff_ne]

end Queue

/-- Whatever is done with a new tree, the queue holds the labels that were put in and not taken
since, each once. The next weight is the least of theirs, and a pop takes a label of this weight
and tells whether it was taken before. The counts are those of the events, every key leads to the
label entered last under it, and a label is put in again with the weight it was given last. -/
theorem performAll_recorded (calls : List (TreeCall Float X)) :
    let past := (({} : SearchTree Float X).performAll calls).1
    let tree := (({} : SearchTree Float X).performAll calls).2
    tree.queue.items.toList.Perm (openLabels past) ∧
    (tree.nextWeight? = none ↔ openLabels past = []) ∧
    (∀ weight, tree.nextWeight? = some weight →
      (∃ item ∈ openLabels past, item.weight = weight) ∧
      ∀ item ∈ openLabels past, Weight.precedes item.weight weight = false) ∧
    (tree.pop? = none ↔ openLabels past = []) ∧
    (∀ id again after, tree.pop? = some (id, again, after) →
      (∃ item ∈ openLabels past, item.id = id ∧ tree.nextWeight? = some item.weight ∧
        ∀ other ∈ openLabels past, Weight.precedes other.weight item.weight = false) ∧
      after.queue.items.toList.Perm ((openLabels past).filter (·.id != id)) ∧
      again = past.any (takes id)) ∧
    tree.visited = past.countP isTaking ∧
    tree.queue.size = (openLabels past).length ∧
    tree.size = past.countP isEntry ∧
    (∀ key, tree.lookup? key = lastNoted keyNote past key) ∧
    ∀ id weight, lastNoted weightNote past id = some weight →
      (tree.perform (.reopen id)).1 = .reopened id weight := by
  intro past tree
  have tracked : Tracked past tree := Tracked.empty.performAll calls
  exact ⟨tracked.queue_perm, tracked.nextWeight?_eq_none,
    fun _ next => tracked.nextWeight?_least next, tracked.pop?_eq_none,
    fun _ _ _ popped => tracked.pop?_least popped, tracked.visited_eq,
    tracked.queue_perm.length_eq, tracked.size_eq, tracked.indexed,
    fun _ _ given => tracked.perform_reopen given⟩

/-- A label of a weight that is not a number waits for one that is taken, made infinite, and taken
again. -/
example : (({} : SearchTree Float Unit).performAll
    [.addRoot none ⟨0, 0, 0 / 0, none, ()⟩, .add 7 ⟨0, 1, -0.0, some 0, ()⟩, .pop,
      .replace 1 ⟨0, 1, 1 / 0, some 0, ()⟩, .reopen 1, .pop, .pop, .pop]).1.filter isTaking =
    [.taken 1 false, .taken 1 true, .taken 0 false] := by
  decide +kernel

end SearchTree

end RouteSearch
