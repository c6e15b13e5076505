/-
This file keeps ids by weight in a binary heap, in which the weight of an id can be changed.
-/

import RouteSearch.Weight

namespace RouteSearch

structure Queued (W : Type) where
  id : Nat
  weight : W

/-- A heap in an array: the children of place `i` are at `2 * i + 1` and `2 * i + 2`, and no
item precedes its parent. -/
structure MinQueue (W : Type) where
  items : Array (Queued W) := #[]

namespace MinQueue

variable {W : Type} [Weight W]

/-- Lets the item at `place` rise above every parent that it precedes. The answer tells also
where the item ended. -/
def siftUp (items : Array (Queued W)) (place : Nat) : Array (Queued W) × Nat :=
  if inside : 0 < place ∧ place < items.size then
    let parent := (place - 1) / 2
    if Weight.precedes items[place].weight items[parent].weight then
      siftUp (items.swap place parent) parent
    else (items, place)
  else (items, place)
termination_by place

/-- `child` if it precedes the place chosen so far. -/
def lower (items : Array (Queued W)) (chosen : Fin items.size) (child : Nat) :
    Fin items.size :=
  if inside : child < items.size then
    if Weight.precedes items[child].weight items[chosen].weight then ⟨child, inside⟩ else chosen
  else chosen

/-- The place whose item has to stand at `place`: the first child if it precedes the item there,
and then the second child if it precedes the one chosen so far. -/
def lowest (items : Array (Queued W)) (place : Fin items.size) : Fin items.size :=
  lower items (lower items place (2 * place + 1)) (2 * place + 2)

/-- Lets the item at `place` sink below every child that precedes it. -/
def siftDown (items : Array (Queued W)) (place : Nat) : Array (Queued W) :=
  if inside : place < items.size then
    let chosen := lowest items ⟨place, inside⟩
    if place < chosen.val then siftDown (items.swap place chosen) chosen else items
  else items
termination_by items.size - place
decreasing_by
  rw [Array.size_swap]
  exact Nat.sub_lt_sub_left inside (by assumption)

def size (queue : MinQueue W) : Nat := queue.items.size

def isEmpty (queue : MinQueue W) : Bool := queue.items.isEmpty

def place? (queue : MinQueue W) (id : Nat) : Option Nat :=
  queue.items.findIdx? (·.id == id)

/-- Puts an id into the queue, or gives a queued id its new weight. -/
def push (queue : MinQueue W) (id : Nat) (weight : W) : MinQueue W :=
  match queue.place? id with
  | none => ⟨(siftUp (queue.items.push ⟨id, weight⟩) queue.items.size).1⟩
  | some place =>
      let (risen, place) := siftUp (queue.items.setIfInBounds place ⟨id, weight⟩) place
      ⟨siftDown risen place⟩

/-- The first item, if there is one. -/
def peek? (queue : MinQueue W) : Option (Queued W) := queue.items[0]?

/-- Takes the first item out. The last one fills its place and sinks. -/
def pop? (queue : MinQueue W) : Option (Queued W × MinQueue W) :=
  match queue.items[0]?, queue.items.back? with
  | some first, some last =>
      let rest := queue.items.pop
      some (first, ⟨siftDown (rest.setIfInBounds 0 last) 0⟩)
  | _, _ => none

end MinQueue

end RouteSearch
