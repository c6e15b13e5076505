/-
This file proves that the heap is a queue: every operation keeps the order of the items, changes
the items as it says, and takes out one that no other precedes.
-/

import RouteSearch.MinQueue
import RouteSearch.Proofs.ExactWeight
import Mathlib.Data.List.Nodup

namespace RouteSearch.MinQueue

variable {W : Type}

theorem set_perm {items : List (Queued W)} {id : Nat} {weight : W} {place : Nat}
    (distinct : (items.map (·.id)).Nodup) (here : items[place]?.map (·.id) = some id) :
    (items.set place ⟨id, weight⟩).Perm (⟨id, weight⟩ :: items.filter (·.id != id)) := by
  induction items generalizing place with
  | nil => simp at here
  | cons item rest ih =>
      rw [List.map_cons, List.nodup_cons] at distinct
      cases place with
      | zero =>
          have same : item.id = id := by simpa using here
          have others : rest.filter (·.id != id) = rest := by
            rw [List.filter_eq_self]
            intro other member
            have differs : other.id ≠ id := fun equal =>
              distinct.1 (same ▸ equal ▸ List.mem_map_of_mem member)
            simpa using differs
          simp [same, others]
      | succ place =>
          have atRest : rest[place]?.map (·.id) = some id := by simpa using here
          have differs : item.id ≠ id := by
            intro equal
            obtain ⟨other, atPlace, otherId⟩ := Option.map_eq_some_iff.mp atRest
            exact distinct.1 (equal ▸ otherId ▸
              List.mem_map_of_mem (List.mem_of_getElem? atPlace))
          rw [List.set_cons_succ, List.filter_cons_of_pos (by simpa using differs)]
          exact ((ih distinct.2 atRest).cons item).trans (.swap _ _ _)

variable [Weight W]

def parentPlace (place : Nat) : Nat := (place - 1) / 2

theorem parentPlace_lt {place : Nat} (positive : 0 < place) : parentPlace place < place := by
  unfold parentPlace
  omega

/-- The item at `lower` does not precede the one at `upper`, if both places are filled. -/
def InOrder (items : Array (Queued W)) (upper lower : Nat) : Prop :=
  ∀ above ∈ items[upper]?, ∀ below ∈ items[lower]?,
    Weight.precedes below.weight above.weight = false

/-- No item precedes the one at the parent of its place. -/
def Heaped (items : Array (Queued W)) : Prop :=
  ∀ place, 0 < place → InOrder items (parentPlace place) place

/-- A heap but for the item at `hole`, which the items around it disregard. -/
structure Loose (items : Array (Queued W)) (hole : Nat) : Prop where
  away : ∀ place, 0 < place → place ≠ hole → parentPlace place ≠ hole →
    InOrder items (parentPlace place) place
  across : ∀ place, 0 < place → parentPlace place = hole → 0 < hole →
    InOrder items (parentPlace hole) place

def Above (items : Array (Queued W)) (hole : Nat) : Prop :=
  0 < hole → InOrder items (parentPlace hole) hole

def Below (items : Array (Queued W)) (hole : Nat) : Prop :=
  ∀ place, 0 < place → parentPlace place = hole → InOrder items hole place

theorem Loose.heaped {items : Array (Queued W)} {hole : Nat} (loose : Loose items hole)
    (above : Above items hole) (below : Below items hole) : Heaped items := by
  intro place positive
  by_cases here : place = hole
  · subst here
    exact above positive
  · by_cases child : parentPlace place = hole
    · rw [child]
      exact below place positive child
    · exact loose.away place positive here child

theorem InOrder.swap {items : Array (Queued W)} {first second upper lower : Nat}
    (firstInside : first < items.size) (secondInside : second < items.size)
    (order : InOrder items (Equiv.swap first second upper) (Equiv.swap first second lower)) :
    InOrder (items.swap first second) upper lower := by
  have moved (place : Nat) :
      (items.swap first second)[place]? = items[Equiv.swap first second place]? := by
    rw [Array.getElem?_swap]
    by_cases isSecond : place = second
    · simp [isSecond]
    · by_cases isFirst : place = first
      · simp [isFirst, Ne.symm (isFirst ▸ isSecond)]
      · simp [Ne.symm isSecond, Ne.symm isFirst, Equiv.swap_apply_of_ne_of_ne isFirst isSecond]
  unfold InOrder
  rw [moved, moved]
  exact order

/-- An item may sink one step if its lowest child takes its place. -/
theorem Loose.sink {items : Array (Queued W)} {place chosen : Nat} (loose : Loose items place)
    (inside : place < items.size) (chosenInside : chosen < items.size)
    (positive : 0 < chosen) (child : parentPlace chosen = place)
    (first : ∀ other, 0 < other → parentPlace other = place → InOrder items chosen other)
    (order : InOrder items chosen place) :
    Loose (items.swap place chosen) chosen ∧ Above (items.swap place chosen) chosen := by
  have chosenGt := parentPlace_lt positive
  refine ⟨⟨?_, ?_⟩, ?_⟩
  · intro other otherPositive notChosen notChild
    apply InOrder.swap inside chosenInside
    by_cases here : other = place
    · have placePositive : 0 < place := here ▸ otherPositive
      have := parentPlace_lt placePositive
      rw [here, Equiv.swap_apply_left, Equiv.swap_apply_of_ne_of_ne (by omega) (by omega)]
      exact loose.across chosen positive child placePositive
    · rw [Equiv.swap_apply_of_ne_of_ne here notChosen]
      by_cases below : parentPlace other = place
      · rw [below, Equiv.swap_apply_left]
        exact first other otherPositive below
      · rw [Equiv.swap_apply_of_ne_of_ne below notChild]
        exact loose.away other otherPositive here below
  · intro other otherPositive below _
    have := parentPlace_lt otherPositive
    apply InOrder.swap inside chosenInside
    rw [child, Equiv.swap_apply_left, Equiv.swap_apply_of_ne_of_ne (by omega) (by omega)]
    exact below ▸ loose.away other otherPositive (by omega) (by omega)
  · intro _
    apply InOrder.swap inside chosenInside
    rw [child, Equiv.swap_apply_left, Equiv.swap_apply_right]
    exact order

theorem siftUp_perm (items : Array (Queued W)) (place : Nat) :
    (siftUp items place).1.Perm items := by
  fun_induction siftUp items place with
  | case1 items place inside upper ahead ih => exact ih.trans (Array.swap_perm _ _)
  | case2 => exact .rfl
  | case3 => exact .rfl

theorem siftDown_perm (items : Array (Queued W)) (place : Nat) :
    (siftDown items place).Perm items := by
  fun_induction siftDown items place with
  | case1 items place inside chosen lower ih => exact ih.trans (Array.swap_perm _ _)
  | case2 => exact .rfl
  | case3 => exact .rfl

theorem Heaped.loose_push {items : Array (Queued W)} (heaped : Heaped items) (item : Queued W) :
    Loose (items.push item) items.size ∧ Below (items.push item) items.size := by
  have beyond {upper lower : Nat} (outside : items.size < lower) :
      InOrder (items.push item) upper lower := by
    intro _ _ below atLower
    have inside := (Array.getElem?_eq_some_iff.mp atLower).1
    rw [Array.size_push] at inside
    omega
  refine ⟨⟨?_, ?_⟩, ?_⟩
  · intro other positive notHere notUpper
    unfold InOrder
    rw [Array.getElem?_push, if_neg notUpper, Array.getElem?_push, if_neg notHere]
    exact heaped other positive
  · intro other positive child _
    exact beyond (child ▸ parentPlace_lt positive)
  · intro other positive child
    exact beyond (child ▸ parentPlace_lt positive)

/-- A queue in heap order that holds every id once. -/
structure Valid (queue : MinQueue W) : Prop where
  heaped : Heaped queue.items
  distinct : (queue.items.toList.map (·.id)).Nodup

theorem Valid.empty : ({} : MinQueue W).Valid where
  heaped := by
    intro place _ above atUpper
    simp at atUpper
  distinct := by simp

/-- A push leaves every other id as it was. -/
theorem push_perm {queue : MinQueue W} (distinct : (queue.items.toList.map (·.id)).Nodup)
    (id : Nat) (weight : W) :
    (queue.push id weight).items.toList.Perm
      (⟨id, weight⟩ :: queue.items.toList.filter (·.id != id)) := by
  unfold push
  cases found : queue.place? id with
  | none =>
      have others : queue.items.toList.filter (·.id != id) = queue.items.toList := by
        rw [List.filter_eq_self]
        intro item member
        have differs := Array.findIdx?_eq_none_iff.mp found item (Array.mem_toList_iff.mp member)
        simpa using differs
      have risen := Array.perm_iff_toList_perm.mp
        (siftUp_perm (queue.items.push ⟨id, weight⟩) queue.items.size)
      rw [others]
      apply risen.trans
      rw [Array.toList_push]
      exact List.perm_append_singleton _ _
  | some place =>
      obtain ⟨inside, same, _⟩ := Array.findIdx?_eq_some_iff_getElem.mp found
      have risen := siftUp_perm (queue.items.setIfInBounds place ⟨id, weight⟩) place
      have sunk := siftDown_perm
        (siftUp (queue.items.setIfInBounds place ⟨id, weight⟩) place).1
        (siftUp (queue.items.setIfInBounds place ⟨id, weight⟩) place).2
      have moved := Array.perm_iff_toList_perm.mp (sunk.trans risen)
      rw [Array.toList_setIfInBounds] at moved
      refine moved.trans (set_perm distinct ?_)
      rw [Array.getElem?_toList, Array.getElem?_eq_getElem inside]
      simpa using same

/-- A push makes a queue longer by one item at most. -/
theorem size_push_le (queue : MinQueue W) (id : Nat) (weight : W) :
    (queue.push id weight).size ≤ queue.size + 1 := by
  unfold push size
  cases queue.place? id with
  | none =>
      have risen := siftUp_perm (queue.items.push ⟨id, weight⟩) queue.items.size
      rw [risen.size_eq, Array.size_push]
  | some place =>
      have risen := siftUp_perm (queue.items.setIfInBounds place ⟨id, weight⟩) place
      have sunk := siftDown_perm
        (siftUp (queue.items.setIfInBounds place ⟨id, weight⟩) place).1
        (siftUp (queue.items.setIfInBounds place ⟨id, weight⟩) place).2
      rw [(sunk.trans risen).size_eq, Array.size_setIfInBounds]
      exact Nat.le_succ _

/-- The items of a queue after a push: the pushed one, and all old ones with other ids. -/
theorem mem_push {queue : MinQueue W} (distinct : (queue.items.toList.map (·.id)).Nodup)
    {id : Nat} {weight : W} {item : Queued W} :
    item ∈ (queue.push id weight).items ↔
      item = ⟨id, weight⟩ ∨ item ∈ queue.items ∧ item.id ≠ id := by
  rw [← Array.mem_toList_iff, (push_perm distinct id weight).mem_iff]
  simp

theorem push_distinct {queue : MinQueue W} (distinct : (queue.items.toList.map (·.id)).Nodup)
    (id : Nat) (weight : W) : ((queue.push id weight).items.toList.map (·.id)).Nodup := by
  refine ((push_perm distinct id weight).map _).nodup_iff.mpr ?_
  rw [List.map_cons, List.nodup_cons]
  constructor
  · simp [List.mem_map]
  · exact distinct.sublist (List.filter_sublist.map _)

theorem pop?_eq_some {queue rest : MinQueue W} {first : Queued W}
    (popped : queue.pop? = some (first, rest)) :
    queue.items[0]? = some first ∧ ∃ last, queue.items.back? = some last ∧
      rest.items = siftDown (queue.items.pop.setIfInBounds 0 last) 0 := by
  unfold pop? at popped
  split at popped
  · rename_i top last atTop atBack
    cases popped
    exact ⟨atTop, last, atBack, rfl⟩
  · cases popped

theorem pop?_eq_none {queue : MinQueue W} : queue.pop? = none ↔ queue.items = #[] := by
  constructor
  · intro stuck
    by_contra filled
    have inside : 0 < queue.items.size := Array.size_pos_iff.mpr filled
    simp [pop?, Array.back?_eq_getElem?, Array.getElem?_eq_getElem inside,
      Array.getElem?_eq_getElem (Nat.sub_one_lt_of_lt inside)] at stuck
  · intro empty
    simp [pop?, empty]

theorem pop?_perm {queue rest : MinQueue W} {first : Queued W}
    (popped : queue.pop? = some (first, rest)) :
    queue.items.toList.Perm (first :: rest.items.toList) := by
  obtain ⟨atTop, last, atBack, filled⟩ := pop?_eq_some popped
  have sunk := Array.perm_iff_toList_perm.mp
    (siftDown_perm (queue.items.pop.setIfInBounds 0 last) 0)
  rw [filled]
  refine .trans ?_ (sunk.symm.cons _)
  rw [Array.toList_setIfInBounds, Array.toList_pop]
  rw [← Array.getElem?_toList] at atTop
  rw [← Array.getLast?_toList] at atBack
  generalize queue.items.toList = items at atTop atBack ⊢
  cases items with
  | nil => simp at atTop
  | cons item others =>
      have same : item = first := by simpa using atTop
      subst same
      rcases List.eq_nil_or_concat others with rfl | ⟨middle, final, rfl⟩
      · simp
      · rw [List.concat_eq_append, ← List.cons_append] at atBack ⊢
        have isLast : final = last := by
          simpa only [List.getLast?_concat, Option.some.injEq] using atBack
        rw [List.dropLast_concat, List.set_cons_zero, List.cons_append, isLast]
        exact (List.perm_append_singleton _ _).cons _

theorem size_pop? {queue rest : MinQueue W} {first : Queued W}
    (popped : queue.pop? = some (first, rest)) : queue.size = rest.size + 1 :=
  (pop?_perm popped).length_eq

theorem pop?_distinct {queue rest : MinQueue W} {first : Queued W}
    (distinct : (queue.items.toList.map (·.id)).Nodup)
    (popped : queue.pop? = some (first, rest)) : (rest.items.toList.map (·.id)).Nodup := by
  have distinct := ((pop?_perm popped).map (·.id)).nodup_iff.mp distinct
  exact (List.nodup_cons.mp distinct).2

/-- A pop leaves all items but the one that it takes out. -/
theorem mem_pop? {queue rest : MinQueue W} {first item : Queued W}
    (distinct : (queue.items.toList.map (·.id)).Nodup)
    (popped : queue.pop? = some (first, rest)) :
    item ∈ rest.items ↔ item ∈ queue.items ∧ item.id ≠ first.id := by
  have moved := pop?_perm popped
  have distinct := (moved.map (·.id)).nodup_iff.mp distinct
  rw [← Array.mem_toList_iff, ← Array.mem_toList_iff, moved.mem_iff, List.mem_cons]
  constructor
  · intro member
    refine ⟨.inr member, fun same => ?_⟩
    have again : first.id ∈ rest.items.toList.map (·.id) :=
      List.mem_map.mpr ⟨item, member, same⟩
    exact (List.nodup_cons.mp distinct).1 again
  · rintro ⟨rfl | member, differs⟩
    · exact absurd rfl differs
    · exact member

variable [RankedWeight W]

theorem InOrder.trans {items : Array (Queued W)} {upper middle lower : Nat}
    (inside : middle < items.size) (first : InOrder items upper middle)
    (second : InOrder items middle lower) : InOrder items upper lower := by
  intro above atUpper below atLower
  have atMiddle : items[middle] ∈ items[middle]? := Array.getElem?_eq_getElem inside
  exact RankedWeight.behind (second _ atMiddle _ atLower) (first _ atUpper _ atMiddle)

/-- An item that precedes its parent may rise one step. -/
theorem Loose.rise {items : Array (Queued W)} {place : Nat} (loose : Loose items place)
    (positive : 0 < place) (inside : place < items.size)
    (upperInside : parentPlace place < items.size) :
    Loose (items.swap place (parentPlace place)) (parentPlace place) := by
  have upperLt := parentPlace_lt positive
  have upperOrder (high : 0 < parentPlace place) :
      InOrder items (parentPlace (parentPlace place)) (parentPlace place) := by
    have := parentPlace_lt high
    exact loose.away _ high (by omega) (by omega)
  constructor
  · intro other otherPositive notUpper notChild
    have notHere : other ≠ place := by
      intro same
      exact notChild (same ▸ rfl)
    apply InOrder.swap inside upperInside
    rw [Equiv.swap_apply_of_ne_of_ne notHere notUpper]
    by_cases child : parentPlace other = place
    · rw [child, Equiv.swap_apply_left]
      exact loose.across other otherPositive child positive
    · rw [Equiv.swap_apply_of_ne_of_ne child notChild]
      exact loose.away other otherPositive notHere child
  · intro other otherPositive child high
    have := parentPlace_lt high
    have otherGt := parentPlace_lt otherPositive
    apply InOrder.swap inside upperInside
    rw [Equiv.swap_apply_of_ne_of_ne (by omega) (by omega)]
    by_cases here : other = place
    · rw [here, Equiv.swap_apply_left]
      exact upperOrder high
    · rw [Equiv.swap_apply_of_ne_of_ne here (by omega)]
      apply (upperOrder high).trans upperInside
      exact child ▸ loose.away other otherPositive here (by omega)

/-- Everything below a risen item stays behind it. -/
theorem Loose.below_rise {items : Array (Queued W)} {place : Nat} (loose : Loose items place)
    (positive : 0 < place) (inside : place < items.size)
    (upperInside : parentPlace place < items.size)
    (ahead : Weight.precedes items[place].weight items[parentPlace place].weight = true) :
    Below (items.swap place (parentPlace place)) (parentPlace place) := by
  intro other otherPositive child
  have order : InOrder items place (parentPlace place) := by
    intro above atPlace below atUpper
    rw [Array.getElem?_eq_getElem inside, Option.mem_some_iff] at atPlace
    rw [Array.getElem?_eq_getElem upperInside, Option.mem_some_iff] at atUpper
    exact atPlace ▸ atUpper ▸ RankedWeight.asymm ahead
  have otherGt := parentPlace_lt otherPositive
  apply InOrder.swap inside upperInside
  rw [Equiv.swap_apply_right]
  by_cases here : other = place
  · rw [here, Equiv.swap_apply_left]
    exact order
  · rw [Equiv.swap_apply_of_ne_of_ne here (by omega)]
    have upperLt := parentPlace_lt positive
    exact order.trans upperInside
      (child ▸ loose.away other otherPositive here (by omega))

theorem siftUp_loose {items : Array (Queued W)} {place : Nat} (loose : Loose items place) :
    Loose (siftUp items place).1 (siftUp items place).2 ∧
      Above (siftUp items place).1 (siftUp items place).2 ∧
      (Below items place → Below (siftUp items place).1 (siftUp items place).2) := by
  fun_induction siftUp items place with
  | case1 items place inside upper ahead ih =>
      have risen := ih (loose.rise inside.1 inside.2 _)
      exact ⟨risen.1, risen.2.1, fun _ => risen.2.2
        (loose.below_rise inside.1 inside.2 _ ahead)⟩
  | case2 items place inside upper behind =>
      refine ⟨loose, fun _ => ?_, id⟩
      intro above atUpper below atPlace
      rw [Array.getElem?_eq_getElem inside.2, Option.mem_some_iff] at atPlace
      rw [Array.getElem?_eq_getElem (Nat.lt_trans (parentPlace_lt inside.1) inside.2),
        Option.mem_some_iff] at atUpper
      exact atUpper ▸ atPlace ▸ Bool.eq_false_iff.mpr behind
  | case3 items place outside =>
      refine ⟨loose, fun positive above _ below atPlace => ?_, id⟩
      have inside := (Array.getElem?_eq_some_iff.mp atPlace).1
      exact absurd ⟨positive, inside⟩ outside

/-- The chosen place is the old one or the child, and it is behind neither of them. -/
theorem lower_choice (items : Array (Queued W)) (chosen : Fin items.size) (child : Nat) :
    (lower items chosen child = chosen ∨ (lower items chosen child).val = child) ∧
      InOrder items (lower items chosen child) chosen ∧
      InOrder items (lower items chosen child) child := by
  have itself (place : Nat) : InOrder items place place := by
    intro above atPlace below atSame
    rw [Option.mem_unique atPlace atSame]
    exact RankedWeight.irrefl _
  fun_cases lower items chosen child with
  | case1 inside ahead =>
      refine ⟨.inr rfl, ?_, itself child⟩
      intro above atChild below atChosen
      rw [Array.getElem?_eq_getElem inside, Option.mem_some_iff] at atChild
      rw [Array.getElem?_eq_getElem chosen.isLt, Option.mem_some_iff] at atChosen
      exact atChild ▸ atChosen ▸ RankedWeight.asymm ahead
  | case2 inside behind =>
      refine ⟨.inl rfl, itself chosen, ?_⟩
      intro above atChosen below atChild
      rw [Array.getElem?_eq_getElem inside, Option.mem_some_iff] at atChild
      rw [Array.getElem?_eq_getElem chosen.isLt, Option.mem_some_iff] at atChosen
      exact atChild ▸ atChosen ▸ Bool.eq_false_iff.mpr behind
  | case3 outside =>
      refine ⟨.inl rfl, itself chosen, ?_⟩
      intro above _ below atChild
      exact absurd (Array.getElem?_eq_some_iff.mp atChild).1 outside

/-- The lowest place is a place or one of its children, and it is behind none of them. -/
theorem lowest_choice (items : Array (Queued W)) (place : Fin items.size) :
    (lowest items place = place ∨
      0 < (lowest items place).val ∧ parentPlace (lowest items place) = place) ∧
    InOrder items (lowest items place) place ∧
    ∀ child, 0 < child → parentPlace child = place →
      InOrder items (lowest items place) child := by
  obtain ⟨leftIs, leftPlace, leftChild⟩ := lower_choice items place (2 * place + 1)
  obtain ⟨rightIs, rightLeft, rightChild⟩ :=
    lower_choice items (lower items place (2 * place + 1)) (2 * place + 2)
  have inside := (lower items place (2 * place + 1)).isLt
  change _ ∧ InOrder items (lower items (lower items place (2 * place + 1)) (2 * place + 2)) _ ∧ _
  refine ⟨?_, rightLeft.trans inside leftPlace, ?_⟩
  · unfold lowest parentPlace
    rcases rightIs with isLeft | isRight
    · rw [isLeft]
      rcases leftIs with isPlace | isLeft
      · exact .inl isPlace
      · right
        omega
    · right
      omega
  · intro child positive isChild
    have cases : child = 2 * place.val + 1 ∨ child = 2 * place.val + 2 := by
      unfold parentPlace at isChild
      omega
    rcases cases with isLeft | isRight
    · exact isLeft ▸ rightLeft.trans inside leftChild
    · exact isRight ▸ rightChild

theorem siftDown_heaped {items : Array (Queued W)} {place : Nat} (loose : Loose items place)
    (above : Above items place) : Heaped (siftDown items place) := by
  fun_induction siftDown items place with
  | case1 items place inside chosen lower ih =>
      obtain ⟨which, order, first⟩ := lowest_choice items ⟨place, inside⟩
      have isChild := which.resolve_left fun same =>
        Nat.ne_of_gt lower (congrArg Fin.val same)
      have sunk := loose.sink inside chosen.isLt isChild.1 isChild.2 first order
      exact ih sunk.1 sunk.2
  | case2 items place inside chosen notLower =>
      obtain ⟨which, order, first⟩ := lowest_choice items ⟨place, inside⟩
      have same : chosen = ⟨place, inside⟩ := which.resolve_right fun isChild =>
        notLower (by simpa [isChild.2] using parentPlace_lt isChild.1)
      have here : (lowest items ⟨place, inside⟩).val = place := congrArg Fin.val same
      refine loose.heaped above fun other positive child => ?_
      have order := first other positive child
      rwa [here] at order
  | case3 items place outside =>
      apply loose.heaped above
      intro other _ _ first atPlace
      exact absurd (Array.getElem?_eq_some_iff.mp atPlace).1 outside

/-- No item precedes the first one. -/
theorem Heaped.first {items : Array (Queued W)} (heaped : Heaped items) (place : Nat) :
    InOrder items 0 place := by
  induction place using Nat.strongRecOn with
  | ind place ih =>
      by_cases positive : 0 < place
      · intro above atTop below atPlace
        have inside := (Array.getElem?_eq_some_iff.mp atPlace).1
        have upper := parentPlace_lt positive
        exact (ih _ upper).trans (Nat.lt_trans upper inside) (heaped place positive)
          above atTop below atPlace
      · intro above atTop below atPlace
        rw [Nat.eq_zero_of_not_pos positive] at atPlace
        rw [Option.mem_unique atTop atPlace]
        exact RankedWeight.irrefl _

/-- Whatever stands at a place of a heap, the rest is a heap but for that place. -/
theorem Heaped.loose {items : Array (Queued W)} (heaped : Heaped items) (place : Nat)
    (item : Queued W) : Loose (items.setIfInBounds place item) place := by
  have elsewhere {upper lower : Nat} (notUpper : upper ≠ place) (notLower : lower ≠ place)
      (order : InOrder items upper lower) :
      InOrder (items.setIfInBounds place item) upper lower := by
    unfold InOrder
    rw [Array.getElem?_setIfInBounds_ne (Ne.symm notUpper),
      Array.getElem?_setIfInBounds_ne (Ne.symm notLower)]
    exact order
  constructor
  · intro other positive notHere notUpper
    exact elsewhere notUpper notHere (heaped other positive)
  · intro other positive child high
    have := parentPlace_lt positive
    have := parentPlace_lt high
    by_cases inside : place < items.size
    · exact elsewhere (by omega) (by omega)
        ((heaped place high).trans inside (child ▸ heaped other positive))
    · intro _ _ below atOther
      have otherInside := (Array.getElem?_eq_some_iff.mp atOther).1
      rw [Array.size_setIfInBounds] at otherInside
      omega

theorem Valid.push {queue : MinQueue W} (valid : queue.Valid) (id : Nat) (weight : W) :
    (queue.push id weight).Valid := by
  constructor
  · unfold MinQueue.push
    cases queue.place? id with
    | none =>
        obtain ⟨loose, below⟩ := valid.heaped.loose_push ⟨id, weight⟩
        obtain ⟨risen, above, kept⟩ := siftUp_loose loose
        exact risen.heaped above (kept below)
    | some place =>
        obtain ⟨risen, above, _⟩ := siftUp_loose (valid.heaped.loose place ⟨id, weight⟩)
        exact siftDown_heaped risen above
  · exact push_distinct valid.distinct id weight

/-- A pop takes out an item that no other precedes. -/
theorem Valid.pop? {queue rest : MinQueue W} {first : Queued W} (valid : queue.Valid)
    (popped : queue.pop? = some (first, rest)) :
    rest.Valid ∧ ∀ item ∈ queue.items, Weight.precedes item.weight first.weight = false := by
  obtain ⟨atTop, last, _, filled⟩ := pop?_eq_some popped
  refine ⟨⟨?_, ?_⟩, ?_⟩
  · have shortened : Heaped queue.items.pop := by
      intro place positive above atUpper below atLower
      rw [Array.getElem?_pop, Option.mem_def, Option.ite_none_right_eq_some] at atUpper atLower
      exact valid.heaped place positive above atUpper.2 below atLower.2
    rw [filled]
    exact siftDown_heaped (shortened.loose 0 last) fun positive =>
      absurd positive (Nat.lt_irrefl 0)
  · exact pop?_distinct valid.distinct popped
  · intro item member
    obtain ⟨place, atPlace⟩ := Array.getElem?_of_mem member
    exact valid.heaped.first place _ atTop _ atPlace

end RouteSearch.MinQueue
