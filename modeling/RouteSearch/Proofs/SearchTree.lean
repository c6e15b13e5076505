/-
This file says what the operations on a search tree change, and proves the order in which the
labels of a tree are settled.
-/

import RouteSearch.SearchTree
import RouteSearch.Proofs.MinQueue
import Mathlib.Data.Finset.Card

namespace RouteSearch.SearchTree

section Operations

variable {W X : Type}

/-- The tree has the label under this id, and it is settled or still open. -/
def Holds (tree : SearchTree W X) (id : LabelId) (label : Label W X) (settled : Bool) : Prop :=
  tree.kept[id]? = some ⟨label, settled⟩

theorem Holds.label? {tree : SearchTree W X} {id : LabelId} {label : Label W X} {settled : Bool}
    (holds : tree.Holds id label settled) : tree.label? id = some label := by
  rw [SearchTree.label?, holds]
  rfl

theorem Holds.lt_size {tree : SearchTree W X} {id : LabelId} {label : Label W X} {settled : Bool}
    (holds : tree.Holds id label settled) : id < tree.kept.size :=
  (Array.getElem?_eq_some_iff.mp holds).1

theorem holds_of_label? {tree : SearchTree W X} {id : LabelId} {label : Label W X}
    (found : tree.label? id = some label) : ∃ settled, tree.Holds id label settled := by
  obtain ⟨⟨label, settled⟩, atId, rfl⟩ := Option.map_eq_some_iff.mp found
  exact ⟨settled, atId⟩

theorem holds_of_lt {tree : SearchTree W X} {id : LabelId} (inside : id < tree.kept.size) :
    ∃ label settled, tree.Holds id label settled :=
  ⟨_, _, Array.getElem?_eq_getElem inside⟩

theorem Holds.unique {tree : SearchTree W X} {id : LabelId} {first second : Label W X}
    {settled other : Bool} (left : tree.Holds id first settled)
    (right : tree.Holds id second other) : first = second ∧ settled = other := by
  have same := Option.some.inj (left.symm.trans right)
  exact ⟨congrArg Kept.label same, congrArg Kept.settled same⟩

variable [Weight W]

/-- `after` is the tree with an open label written under `id`, which is the best one for `key`.
The label is new, or it takes the place of a dearer one. -/
structure Writes (tree : SearchTree W X) (key : StateKey) (label : Label W X) (id : LabelId)
    (after : SearchTree W X) : Prop where
  lookup? : ∀ other, after.lookup? other = if other = key then some id else tree.lookup? other
  elsewhere : ∀ other, other ≠ id → after.kept[other]? = tree.kept[other]?
  queue : after.queue = tree.queue.push id label.weight
  last : after.last = tree.last
  visited : after.visited = tree.visited
  finished : after.finished = tree.finished
  written : tree.lookup? key = none ∧ id = tree.kept.size ∧ after.Holds id label false ∧
      after.kept.size = tree.kept.size + 1 ∨
    ∃ known settled, tree.lookup? key = some id ∧ tree.Holds id known settled ∧
      Weight.less label.weight known.weight = true ∧ after.Holds id label settled ∧
      after.kept.size = tree.kept.size

theorem writes_add {tree : SearchTree W X} {key : StateKey} (unknown : tree.lookup? key = none)
    (label : Label W X) : tree.Writes key label tree.size (tree.add (some key) label) where
  lookup? other := by
    change (tree.index.insert key tree.size)[other]? = _
    rw [Std.HashMap.getElem?_insert]
    by_cases same : other = key
    · rw [if_pos same, if_pos (beq_iff_eq.mpr same.symm)]
    · rw [if_neg same, if_neg (mt (Eq.symm ∘ beq_iff_eq.mp) same)]
      rfl
  elsewhere other differs := by
    have beyond : other ≠ tree.kept.size := differs
    simp only [add]
    rw [Array.getElem?_push, if_neg beyond]
  queue := rfl
  last := rfl
  visited := rfl
  finished := rfl
  written := by
    refine .inl ⟨unknown, rfl, ?_, Array.size_push ..⟩
    simp only [Holds, add]
    exact Array.getElem?_push_size

theorem writes_improve {tree : SearchTree W X} {key : StateKey} {id : LabelId}
    {known label : Label W X} (found : tree.lookup? key = some id)
    (atId : tree.label? id = some known)
    (cheaper : Weight.less label.weight known.weight = true) :
    tree.Writes key label id ((tree.setLabel id label).reopen id) := by
  obtain ⟨settled, holds⟩ := holds_of_label? atId
  have replaced : (tree.setLabel id label).Holds id label settled := by
    simp only [Holds, setLabel]
    rw [Array.getElem?_modify, if_pos rfl, holds]
    rfl
  have reopened : (tree.setLabel id label).reopen id =
      { tree.setLabel id label with queue := tree.queue.push id label.weight } := by
    rw [reopen, replaced.label?]
    rfl
  rw [reopened]
  exact
    { lookup? := by
        intro other
        by_cases same : other = key
        · rw [if_pos same, same]
          exact found
        · rw [if_neg same]
          rfl
      elsewhere := by
        intro other differs
        simp only [setLabel]
        rw [Array.getElem?_modify, if_neg (Ne.symm differs)]
      queue := rfl
      last := rfl
      visited := rfl
      finished := rfl
      written := .inr ⟨known, settled, found, holds, cheaper, replaced, by simp [setLabel]⟩ }

theorem Writes.holds {tree after : SearchTree W X} {key : StateKey} {label : Label W X}
    {id : LabelId} (writes : tree.Writes key label id after) :
    ∃ settled, after.Holds id label settled := by
  rcases writes.written with ⟨_, _, holds, _⟩ | ⟨_, settled, _, _, _, holds, _⟩
  · exact ⟨false, holds⟩
  · exact ⟨settled, holds⟩

theorem Writes.label? {tree after : SearchTree W X} {key : StateKey} {label : Label W X}
    {id : LabelId} (writes : tree.Writes key label id after) : after.label? id = some label := by
  obtain ⟨settled, holds⟩ := writes.holds
  exact holds.label?

theorem Writes.indexed {tree after : SearchTree W X} {key : StateKey} {label : Label W X}
    {id : LabelId} (writes : tree.Writes key label id after) : after.lookup? key = some id := by
  rw [writes.lookup?, if_pos rfl]

theorem Writes.label?_elsewhere {tree after : SearchTree W X} {key : StateKey}
    {label : Label W X} {id other : LabelId} (writes : tree.Writes key label id after)
    (differs : other ≠ id) : after.label? other = tree.label? other := by
  rw [SearchTree.label?, writes.elsewhere other differs, SearchTree.label?]

theorem Writes.label?_cases {tree after : SearchTree W X} {key : StateKey}
    {label found : Label W X} {id other : LabelId} (writes : tree.Writes key label id after)
    (atOther : after.label? other = some found) :
    other = id ∧ found = label ∨ other ≠ id ∧ tree.label? other = some found := by
  by_cases same : other = id
  · rw [same, writes.label?, Option.some.injEq] at atOther
    exact .inl ⟨same, atOther.symm⟩
  · rw [writes.label?_elsewhere same] at atOther
    exact .inr ⟨same, atOther⟩

/-- A key goes on leading to its label. -/
theorem Writes.lookup?_mono {tree after : SearchTree W X} {key other : StateKey}
    {label : Label W X} {id place : LabelId} (writes : tree.Writes key label id after)
    (found : tree.lookup? other = some place) : after.lookup? other = some place := by
  rw [writes.lookup?]
  split
  · rename_i same
    rcases writes.written with ⟨unknown, _⟩ | ⟨_, _, known, _⟩
    · rw [same, unknown] at found
      cases found
    · rw [← known, ← same, found]
  · exact found

/-- A label stands under a key if it did before, or if it was written. -/
theorem Writes.indexed_iff {tree after : SearchTree W X} {key : StateKey} {label : Label W X}
    {id other : LabelId} (writes : tree.Writes key label id after) :
    (∃ key, after.lookup? key = some other) ↔
      other = id ∨ ∃ key, tree.lookup? key = some other := by
  constructor
  · rintro ⟨place, found⟩
    rw [writes.lookup?] at found
    split at found
    · exact .inl (Option.some.inj found).symm
    · exact .inr ⟨place, found⟩
  · rintro (rfl | ⟨place, found⟩)
    · exact ⟨key, writes.indexed⟩
    · exact ⟨place, writes.lookup?_mono found⟩

/-- `after` is the tree from which the open label under `id` was taken. -/
structure Takes (tree : SearchTree W X) (id : LabelId) (label : Label W X)
    (after : SearchTree W X) : Prop where
  taken : tree.Holds id label false
  settled : after.Holds id label true
  elsewhere : ∀ other, other ≠ id → after.kept[other]? = tree.kept[other]?
  lookup? : ∀ key, after.lookup? key = tree.lookup? key
  last : after.last = some id
  visited : after.visited = tree.visited + 1
  finished : after.finished = tree.finished

/-- A pop takes the label of the item at the head of the queue. -/
theorem pop?_eq_some {tree after : SearchTree W X} {id : LabelId} {seen : Bool}
    (popped : tree.pop? = some (id, seen, after)) :
    ∃ weight, tree.queue.pop? = some (⟨id, weight⟩, after.queue) ∧
      seen = tree.kept[id]?.any (·.settled) ∧
      ∀ label, tree.Holds id label false → tree.Takes id label after := by
  unfold pop? at popped
  cases taken : tree.queue.pop? with
  | none => simp [taken] at popped
  | some pair =>
      obtain ⟨first, rest⟩ := pair
      simp only [taken, Option.some.injEq, Prod.mk.injEq] at popped
      obtain ⟨rfl, rfl, rfl⟩ := popped
      refine ⟨first.weight, rfl, rfl, fun label holds => ?_⟩
      exact
        { taken := holds
          settled := by
            simp only [Holds]
            rw [Array.getElem?_modify, if_pos rfl, holds]
            rfl
          elsewhere := by
            intro other differs
            rw [Array.getElem?_modify, if_neg (Ne.symm differs)]
          lookup? := fun _ => rfl
          last := rfl
          visited := rfl
          finished := rfl }

/-- A pop changes neither the labels nor the index. -/
theorem pop?_keeps {tree after : SearchTree W X} {id : LabelId} {seen : Bool}
    (popped : tree.pop? = some (id, seen, after)) :
    (∀ other, after.label? other = tree.label? other) ∧
      ∀ key, after.lookup? key = tree.lookup? key := by
  unfold pop? at popped
  split at popped
  · cases popped
  · rename_i first rest _
    simp only [Option.some.injEq, Prod.mk.injEq] at popped
    obtain ⟨_, _, rfl⟩ := popped
    refine ⟨fun other => ?_, fun key => rfl⟩
    simp only [SearchTree.label?]
    rw [Array.getElem?_modify]
    by_cases same : first.id = other
    · rw [if_pos same]
      cases tree.kept[other]? <;> rfl
    · rw [if_neg same]

/-- A pop counts what it takes and settles it, whether or not it was settled before. -/
theorem pop?_settles {tree after : SearchTree W X} {id : LabelId} {seen : Bool}
    (popped : tree.pop? = some (id, seen, after)) :
    after.visited = tree.visited + 1 ∧ after.size = tree.size ∧
      ∀ other label, after.Holds other label false → other ≠ id ∧ tree.Holds other label false := by
  unfold pop? at popped
  split at popped
  · cases popped
  · rename_i first rest _
    simp only [Option.some.injEq, Prod.mk.injEq] at popped
    obtain ⟨rfl, _, rfl⟩ := popped
    refine ⟨rfl, Array.size_modify, fun other label holds => ?_⟩
    simp only [Holds] at holds
    rw [Array.getElem?_modify] at holds
    by_cases same : first.id = other
    · rw [if_pos same] at holds
      obtain ⟨kept, _, settled⟩ := Option.map_eq_some_iff.mp holds
      cases settled
    · rw [if_neg same] at holds
      exact ⟨Ne.symm same, holds⟩

theorem pop?_eq_none {tree : SearchTree W X} (stuck : tree.pop? = none) :
    tree.queue.items = #[] := by
  unfold pop? at stuck
  cases taken : tree.queue.pop? with
  | none => exact MinQueue.pop?_eq_none.mp taken
  | some pair => simp [taken] at stuck

omit [Weight W] in
theorem Takes.holds_iff {tree after : SearchTree W X} {id other : LabelId}
    {label found : Label W X} {settled : Bool} (takes : tree.Takes id label after) :
    after.Holds other found settled ↔
      other = id ∧ found = label ∧ settled = true ∨
        other ≠ id ∧ tree.Holds other found settled := by
  by_cases same : other = id
  · subst same
    constructor
    · intro holds
      exact .inl ⟨rfl, holds.unique takes.settled⟩
    · rintro (⟨_, rfl, rfl⟩ | ⟨differs, _⟩)
      · exact takes.settled
      · exact absurd rfl differs
  · unfold Holds
    simp only [takes.elsewhere other same, same, false_and, false_or, ne_eq, not_false_eq_true,
      true_and]

omit [Weight W] in
theorem Takes.label? {tree after : SearchTree W X} {id : LabelId} {label : Label W X}
    (takes : tree.Takes id label after) (other : LabelId) :
    after.label? other = tree.label? other := by
  by_cases same : other = id
  · subst same
    rw [takes.settled.label?, takes.taken.label?]
  · rw [SearchTree.label?, takes.elsewhere other same]
    rfl

end Operations

section Tidy

variable {X : Type} {tree after : SearchTree Exact X} {key : StateKey} {id : LabelId}
  {label : Label Exact X}

/-- The index leads to labels, to none of them from two keys, and every label weighs a
fraction. -/
structure Tidy (tree : SearchTree Exact X) : Prop where
  inside : ∀ {key id}, tree.lookup? key = some id → ∃ label, tree.label? id = some label
  injective : ∀ {first second id}, tree.lookup? first = some id →
    tree.lookup? second = some id → first = second
  finite : ∀ {id label}, tree.label? id = some label → ∃ value, label.weight = .finite value

namespace Tidy

/-- Only a label under the key that is written to changes its place in the index. -/
theorem eq_key (tidy : tree.Tidy) (writes : tree.Writes key label id after) {other : StateKey}
    (found : tree.lookup? other = some id) : other = key := by
  rcases writes.written with ⟨_, fresh, _⟩ | ⟨_, _, known, _⟩
  · obtain ⟨_, atId⟩ := tidy.inside found
    obtain ⟨_, holds⟩ := holds_of_label? atId
    exact absurd (fresh ▸ holds.lt_size) (Nat.lt_irrefl _)
  · exact tidy.injective found known

theorem congr (tidy : tree.Tidy) (labels : ∀ other, after.label? other = tree.label? other)
    (lookups : ∀ other, after.lookup? other = tree.lookup? other) : after.Tidy where
  inside found := (tidy.inside ((lookups _).symm.trans found)).imp fun _ => (labels _).trans
  injective atFirst atSecond :=
    tidy.injective ((lookups _).symm.trans atFirst) ((lookups _).symm.trans atSecond)
  finite atId := tidy.finite ((labels _).symm.trans atId)

theorem write (tidy : tree.Tidy) (writes : tree.Writes key label id after) {value : Rat}
    (isValue : label.weight = .finite value) : after.Tidy := by
  have written := writes.label?
  constructor
  · intro other place found
    by_cases same : place = id
    · exact ⟨label, same ▸ written⟩
    · rw [writes.label?_elsewhere same]
      rw [writes.lookup?] at found
      split at found
      · exact absurd (Option.some.inj found).symm same
      · exact tidy.inside found
  · intro first second place atFirst atSecond
    rw [writes.lookup?] at atFirst atSecond
    split at atFirst <;> split at atSecond
    case isTrue.isTrue isFirst isSecond => rw [isFirst, isSecond]
    case isTrue.isFalse isFirst isOther =>
      exact absurd (tidy.eq_key writes (Option.some.inj atFirst ▸ atSecond)) isOther
    case isFalse.isTrue isOther isSecond =>
      exact absurd (tidy.eq_key writes (Option.some.inj atSecond ▸ atFirst)) isOther
    case isFalse.isFalse => exact tidy.injective atFirst atSecond
  · intro other found atOther
    by_cases same : other = id
    · rw [same, written, Option.some.injEq] at atOther
      exact ⟨value, atOther ▸ isValue⟩
    · exact tidy.finite ((writes.label?_elsewhere same).symm.trans atOther)

end Tidy

end Tidy

section Order

variable {X : Type} {tree after : SearchTree Exact X} {bound : Rat}

/-- The ids of the labels that have been taken from the queue. -/
def settledIds (tree : SearchTree Exact X) : Finset LabelId :=
  (Finset.range tree.kept.size).filter fun id => tree.kept[id]?.any (·.settled)

theorem mem_settledIds {id : LabelId} :
    id ∈ tree.settledIds ↔ ∃ label, tree.Holds id label true := by
  unfold settledIds Holds
  rw [Finset.mem_filter, Finset.mem_range, Option.any_eq_true]
  constructor
  · rintro ⟨_, ⟨label, settled⟩, atId, isSettled⟩
    exact ⟨label, isSettled ▸ atId⟩
  · rintro ⟨label, atId⟩
    exact ⟨(Array.getElem?_eq_some_iff.mp atId).1, _, atId, rfl⟩

/-- The tree settles its labels in the order of their weights. `bound` is the weight of the one
settled last; the open labels are those in the queue. -/
structure Ordered (tree : SearchTree Exact X) (bound : Rat) : Prop where
  valid : tree.queue.Valid
  queued : ∀ {id weight}, ⟨id, weight⟩ ∈ tree.queue.items ↔
    ∃ label, tree.Holds id label false ∧ label.weight = weight
  last : tree.lastWeight = .finite bound
  behind : ∀ {id label}, tree.Holds id label true →
    ∃ value, value ≤ bound ∧ label.weight = .finite value
  ahead : ∀ {id label}, tree.Holds id label false →
    ∃ value, bound ≤ value ∧ label.weight = .finite value
  counted : tree.settledIds.card = tree.visited

theorem Ordered.finite (ordered : tree.Ordered bound) {id : LabelId} {label : Label Exact X}
    {settled : Bool} (holds : tree.Holds id label settled) :
    ∃ value, label.weight = .finite value := by
  cases settled with
  | true => exact (ordered.behind holds).imp fun _ => And.right
  | false => exact (ordered.ahead holds).imp fun _ => And.right

theorem lastWeight_eq_finite (last : tree.lastWeight = .finite bound) :
    ∃ id label, tree.last = some id ∧ tree.label? id = some label ∧
      label.weight = .finite bound := by
  unfold lastWeight at last
  cases found : tree.last.bind tree.label? with
  | none =>
      rw [found] at last
      cases last
  | some label =>
      rw [found] at last
      obtain ⟨id, isLast, atId⟩ := Option.bind_eq_some_iff.mp found
      exact ⟨id, label, isLast, atId, last⟩

theorem lastWeight_of_last {id : LabelId} {label : Label Exact X} (isLast : tree.last = some id)
    (atId : tree.label? id = some label) : tree.lastWeight = label.weight := by
  rw [lastWeight, isLast, Option.bind_some, atId]

variable {key : StateKey} {label : Label Exact X} {id : LabelId} {value : Rat}

/-- A way that is not cheaper than the label settled last changes open labels only. -/
theorem Ordered.overwritten (ordered : tree.Ordered bound)
    (writes : tree.Writes key label id after) (weight : label.weight = .finite value)
    (dearer : bound ≤ value) {known : Label Exact X} {settled : Bool}
    (holds : tree.Holds id known settled) :
    settled = false ∧ ∃ old, known.weight = .finite old ∧ value < old := by
  rcases writes.written with ⟨_, fresh, _⟩ | ⟨other, state, _, held, cheaper, _⟩
  · exact absurd (fresh ▸ holds.lt_size) (Nat.lt_irrefl _)
  · obtain ⟨rfl, rfl⟩ := holds.unique held
    obtain ⟨old, oldWeight⟩ := ordered.finite holds
    have less : value < old := by simpa [weight, oldWeight] using cheaper
    refine ⟨?_, old, oldWeight, less⟩
    cases settled with
    | false => rfl
    | true =>
        obtain ⟨same, atMost, sameWeight⟩ := ordered.behind holds
        rw [oldWeight, Exact.finite.injEq] at sameWeight
        linarith

theorem Ordered.holds_write (ordered : tree.Ordered bound)
    (writes : tree.Writes key label id after) (weight : label.weight = .finite value)
    (dearer : bound ≤ value) (other : LabelId) (found : Label Exact X) (settled : Bool) :
    after.Holds other found settled ↔ other = id ∧ found = label ∧ settled = false ∨
      other ≠ id ∧ tree.Holds other found settled := by
  have written : after.Holds id label false := by
    rcases writes.written with ⟨_, _, holds, _⟩ | ⟨known, state, _, held, _, holds, _⟩
    · exact holds
    · obtain ⟨rfl, _⟩ := ordered.overwritten writes weight dearer held
      exact holds
  by_cases same : other = id
  · subst same
    constructor
    · intro holds
      exact .inl ⟨rfl, holds.unique written⟩
    · rintro (⟨_, rfl, rfl⟩ | ⟨differs, _⟩)
      · exact written
      · exact absurd rfl differs
  · unfold Holds
    simp only [writes.elsewhere other same, same, false_and, false_or, ne_eq,
      not_false_eq_true, true_and]

/-- The order survives a way that is not cheaper than the label settled last. -/
theorem Ordered.write (ordered : tree.Ordered bound) (writes : tree.Writes key label id after)
    (weight : label.weight = .finite value) (dearer : bound ≤ value) : after.Ordered bound := by
  have holds {other : LabelId} {found : Label Exact X} {settled : Bool} :=
    ordered.holds_write writes weight dearer other found settled
  constructor
  · rw [writes.queue]
    exact ordered.valid.push _ _
  · intro other otherWeight
    rw [writes.queue, MinQueue.mem_push ordered.valid.distinct, ordered.queued]
    constructor
    · rintro (isNew | ⟨⟨found, held, rfl⟩, differs⟩)
      · cases isNew
        exact ⟨label, holds.mpr (.inl ⟨rfl, rfl, rfl⟩), rfl⟩
      · exact ⟨found, holds.mpr (.inr ⟨differs, held⟩), rfl⟩
    · rintro ⟨found, held, rfl⟩
      rcases holds.mp held with ⟨rfl, rfl, _⟩ | ⟨differs, before⟩
      · exact .inl rfl
      · exact .inr ⟨⟨found, before, rfl⟩, differs⟩
  · obtain ⟨place, lastLabel, isLast, atPlace, lastWeight⟩ := lastWeight_eq_finite ordered.last
    obtain ⟨settled, held⟩ := holds_of_label? atPlace
    have differs : place ≠ id := by
      rintro rfl
      obtain ⟨_, old, oldWeight, less⟩ := ordered.overwritten writes weight dearer held
      rw [lastWeight, Exact.finite.injEq] at oldWeight
      linarith
    have kept := (holds.mpr (.inr ⟨differs, held⟩)).label?
    rw [lastWeight_of_last (writes.last.trans isLast) kept, lastWeight]
  · intro other found held
    rcases holds.mp held with ⟨_, _, isOpen⟩ | ⟨_, before⟩
    · cases isOpen
    · exact ordered.behind before
  · intro other found held
    rcases holds.mp held with ⟨_, rfl, _⟩ | ⟨_, before⟩
    · exact ⟨value, dearer, weight⟩
    · exact ordered.ahead before
  · rw [writes.visited, ← ordered.counted]
    congr 1
    ext other
    rw [mem_settledIds, mem_settledIds]
    constructor
    · rintro ⟨found, held⟩
      rcases holds.mp held with ⟨_, _, isOpen⟩ | ⟨_, before⟩
      · cases isOpen
      · exact ⟨found, before⟩
    · rintro ⟨found, held⟩
      refine ⟨found, holds.mpr (.inr ⟨?_, held⟩)⟩
      rintro rfl
      cases (ordered.overwritten writes weight dearer held).1

/-- The order survives the settling of a label that no queued item precedes. -/
theorem Ordered.take (ordered : tree.Ordered bound) (takes : tree.Takes id label after)
    (weight : label.weight = .finite value) (dearer : bound ≤ value)
    (fromQueue : tree.queue.pop? = some (⟨id, label.weight⟩, after.queue)) :
    after.Ordered value := by
  obtain ⟨restValid, cheapest⟩ := ordered.valid.pop? fromQueue
  have isNew {found : Label Exact X} : ¬ tree.Holds id found true := fun held => by
    cases (takes.taken.unique held).2
  constructor
  · exact restValid
  · intro other otherWeight
    rw [MinQueue.mem_pop? ordered.valid.distinct fromQueue, ordered.queued]
    constructor
    · rintro ⟨⟨found, held, rfl⟩, differs⟩
      exact ⟨found, takes.holds_iff.mpr (.inr ⟨differs, held⟩), rfl⟩
    · rintro ⟨found, held, rfl⟩
      rcases takes.holds_iff.mp held with ⟨_, _, isOpen⟩ | ⟨differs, before⟩
      · cases isOpen
      · exact ⟨⟨found, before, rfl⟩, differs⟩
  · rw [lastWeight_of_last takes.last takes.settled.label?, weight]
  · intro other found held
    rcases takes.holds_iff.mp held with ⟨_, rfl, _⟩ | ⟨_, before⟩
    · exact ⟨value, le_refl value, weight⟩
    · obtain ⟨old, atMost, oldWeight⟩ := ordered.behind before
      exact ⟨old, atMost.trans dearer, oldWeight⟩
  · intro other found held
    rcases takes.holds_iff.mp held with ⟨_, _, isOpen⟩ | ⟨_, before⟩
    · cases isOpen
    · obtain ⟨old, _, oldWeight⟩ := ordered.ahead before
      have notLess := cheapest _ (ordered.queued.mpr ⟨found, before, rfl⟩)
      refine ⟨old, ?_, oldWeight⟩
      simpa [oldWeight, weight] using notLess
  · have absent : id ∉ tree.settledIds := fun member =>
      isNew (mem_settledIds.mp member).choose_spec
    rw [takes.visited, ← ordered.counted, ← Finset.card_insert_of_notMem absent]
    congr 1
    ext other
    rw [Finset.mem_insert, mem_settledIds, mem_settledIds]
    constructor
    · rintro ⟨found, held⟩
      rcases takes.holds_iff.mp held with ⟨same, _⟩ | ⟨_, before⟩
      · exact .inl same
      · exact .inr ⟨found, before⟩
    · rintro (rfl | ⟨found, held⟩)
      · exact ⟨label, takes.settled⟩
      · refine ⟨found, takes.holds_iff.mpr (.inr ⟨?_, held⟩)⟩
        rintro rfl
        exact isNew held

/-- A tree without items in its queue has no open label, and a pop takes a cheapest one. -/
theorem Ordered.pop? (ordered : tree.Ordered bound) :
    match tree.pop? with
    | none => ∀ id label, ¬ tree.Holds id label false
    | some (id, seen, after) => seen = false ∧ ∃ label value, tree.Takes id label after ∧
        label.weight = .finite value ∧ bound ≤ value ∧ after.Ordered value := by
  cases popped : tree.pop? with
  | none =>
      intro id label holds
      have member := ordered.queued.mpr ⟨label, holds, rfl⟩
      rw [pop?_eq_none popped] at member
      simp at member
  | some triple =>
      obtain ⟨id, seen, after⟩ := triple
      obtain ⟨weight, fromQueue, wasSeen, takes⟩ := pop?_eq_some popped
      have atHead := (MinQueue.pop?_eq_some fromQueue).1
      obtain ⟨label, holds, rfl⟩ := ordered.queued.mp (Array.mem_of_getElem? atHead)
      obtain ⟨value, dearer, isValue⟩ := ordered.ahead holds
      refine ⟨?_, label, value, takes label holds, isValue, dearer,
        ordered.take (takes label holds) isValue dearer fromQueue⟩
      rw [wasSeen, holds]
      rfl

theorem Ordered.finish (ordered : tree.Ordered bound) (finished : Bool) :
    (tree.finish finished).Ordered bound :=
  ⟨ordered.valid, ordered.queued, ordered.last, ordered.behind, ordered.ahead, ordered.counted⟩

/-- What no step of a search takes back. -/
structure Grows (tree after : SearchTree Exact X) : Prop where
  settled : ∀ {id label}, tree.Holds id label true → after.Holds id label true
  lookup? : ∀ {key id}, tree.lookup? key = some id → after.lookup? key = some id
  finished : tree.finished = true → after.finished = true
  last : ∀ {value}, tree.lastWeight = .finite value →
    ∃ later, value ≤ later ∧ after.lastWeight = .finite later
  cheaper : ∀ {id label settled value}, tree.Holds id label settled →
    label.weight = .finite value → ∃ known state less, after.Holds id known state ∧
      known.weight = .finite less ∧ less ≤ value

theorem Grows.refl (tree : SearchTree Exact X) : tree.Grows tree :=
  ⟨id, id, id, fun isLast => ⟨_, le_refl _, isLast⟩,
    fun holds isValue => ⟨_, _, _, holds, isValue, le_refl _⟩⟩

theorem Grows.trans {middle : SearchTree Exact X} (first : tree.Grows middle)
    (second : middle.Grows after) : tree.Grows after where
  settled holds := second.settled (first.settled holds)
  lookup? found := second.lookup? (first.lookup? found)
  finished isFinished := second.finished (first.finished isFinished)
  last isLast := by
    obtain ⟨later, atMost, isLater⟩ := first.last isLast
    obtain ⟨final, atLeast, isFinal⟩ := second.last isLater
    exact ⟨final, atMost.trans atLeast, isFinal⟩
  cheaper holds isValue := by
    obtain ⟨known, state, less, held, isLess, atMost⟩ := first.cheaper holds isValue
    obtain ⟨final, state, least, kept, isLeast, atLeast⟩ := second.cheaper held isLess
    exact ⟨final, state, least, kept, isLeast, atLeast.trans atMost⟩

theorem grows_finish (tree : SearchTree Exact X) : tree.Grows (tree.finish true) :=
  ⟨id, id, fun _ => rfl, fun isLast => ⟨_, le_refl _, isLast⟩,
    fun holds isValue => ⟨_, _, _, holds, isValue, le_refl _⟩⟩

theorem Ordered.grows_write (ordered : tree.Ordered bound)
    (writes : tree.Writes key label id after) (weight : label.weight = .finite value)
    (dearer : bound ≤ value) : tree.Grows after where
  settled {other found} holds := by
    refine (ordered.holds_write writes weight dearer _ _ _).mpr (.inr ⟨?_, holds⟩)
    rintro rfl
    cases (ordered.overwritten writes weight dearer holds).1
  lookup? {other place} found := writes.lookup?_mono found
  finished isFinished := writes.finished.trans isFinished
  last {old} isLast := by
    rw [ordered.last, Exact.finite.injEq] at isLast
    exact ⟨bound, isLast.ge, (ordered.write writes weight dearer).last⟩
  cheaper {other found settled old} holds isOld := by
    have kept {place : LabelId} {known : Label Exact X} {state : Bool} :=
      ordered.holds_write writes weight dearer place known state
    by_cases same : other = id
    · subst same
      obtain ⟨_, known, isKnown, less⟩ := ordered.overwritten writes weight dearer holds
      rw [isOld, Exact.finite.injEq] at isKnown
      exact ⟨label, false, value, kept.mpr (.inl ⟨rfl, rfl, rfl⟩), weight, isKnown ▸ less.le⟩
    · exact ⟨found, settled, old, kept.mpr (.inr ⟨same, holds⟩), isOld, le_refl old⟩

theorem Ordered.grows_take (ordered : tree.Ordered bound) (takes : tree.Takes id label after)
    (weight : label.weight = .finite value) (dearer : bound ≤ value) : tree.Grows after where
  settled {other found} holds := by
    refine takes.holds_iff.mpr (.inr ⟨?_, holds⟩)
    rintro rfl
    cases (takes.taken.unique holds).2
  lookup? {other place} found := (takes.lookup? other).trans found
  finished isFinished := takes.finished.trans isFinished
  last {old} isLast := by
    rw [ordered.last, Exact.finite.injEq] at isLast
    refine ⟨value, isLast ▸ dearer, ?_⟩
    rw [lastWeight_of_last takes.last takes.settled.label?, weight]
  cheaper {other found settled old} holds isOld := by
    obtain ⟨state, kept⟩ := holds_of_label? ((takes.label? other).trans holds.label?)
    exact ⟨found, state, old, kept, isOld, le_refl old⟩

end Order

end RouteSearch.SearchTree
