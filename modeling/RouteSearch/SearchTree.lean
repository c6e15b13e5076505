/-
This file keeps the labels of one search direction: all that were ever made, those still open,
and the best one for every state.
-/

import RouteSearch.Label
import RouteSearch.MinQueue
import RouteSearch.StateKind
import Std.Data.HashMap

namespace RouteSearch

/-- A label in the tree. It is settled once it has been taken from the queue. -/
structure Kept (W X : Type) where
  label : Label W X
  settled : Bool

/-- A label's id is its place in `kept`. `last` is the label taken last. -/
structure SearchTree (W X : Type) where
  kept : Array (Kept W X) := #[]
  queue : MinQueue W := {}
  index : Std.HashMap StateKey LabelId := ∅
  last : Option LabelId := none
  visited : Nat := 0
  finished : Bool := false

namespace SearchTree

variable {W X : Type}

def size (tree : SearchTree W X) : Nat := tree.kept.size

def stateCount (tree : SearchTree W X) : Nat := tree.index.size

def label? (tree : SearchTree W X) (id : LabelId) : Option (Label W X) :=
  tree.kept[id]?.map (·.label)

def lookup? (tree : SearchTree W X) (key : StateKey) : Option LabelId :=
  tree.index[key]?

/-- Replaces a label. Its place in the queue stays as it was. -/
def setLabel (tree : SearchTree W X) (id : LabelId) (label : Label W X) : SearchTree W X :=
  { tree with kept := tree.kept.modify id fun kept => { kept with label := label } }

def finish (tree : SearchTree W X) (finished : Bool) : SearchTree W X :=
  { tree with finished := finished }

/-- The labels from `id` along the parents to a root. There is no answer if a parent is
missing, or if no root is met within as many steps as there are labels. -/
def lineageWithin (tree : SearchTree W X) : Nat → LabelId → Option (List (Label W X))
  | 0, _ => none
  | steps + 1, id => do
      let label ← tree.label? id
      match label.parent with
      | none => pure [label]
      | some parent => return label :: (← tree.lineageWithin steps parent)

def lineage? (tree : SearchTree W X) (id : LabelId) : Option (List (Label W X)) :=
  tree.lineageWithin tree.size id

variable [Weight W]

/-- Adds an open label, and makes it the best one for `key` if there is one. -/
def add (tree : SearchTree W X) (key : Option StateKey) (label : Label W X) :
    SearchTree W X :=
  { tree with
    kept := tree.kept.push ⟨label, false⟩
    queue := tree.queue.push tree.size label.weight
    index := match key with
      | none => tree.index
      | some key => tree.index.insert key tree.size }

/-- Adds the root, which counts as the label taken last. -/
def addRoot (tree : SearchTree W X) (key : Option StateKey) (label : Label W X) :
    SearchTree W X :=
  { tree.add key label with last := some tree.size }

/-- Puts a label into the queue with the weight that it has now. -/
def reopen (tree : SearchTree W X) (id : LabelId) : SearchTree W X :=
  match tree.label? id with
  | none => tree
  | some label => { tree with queue := tree.queue.push id label.weight }

/-- Takes the cheapest open label. The answer tells whether it had been taken before. -/
def pop? (tree : SearchTree W X) : Option (LabelId × Bool × SearchTree W X) :=
  match tree.queue.pop? with
  | none => none
  | some (first, queue) =>
      let seen := tree.kept[first.id]?.any (·.settled)
      some (first.id, seen,
        { tree with
          kept := tree.kept.modify first.id fun kept => { kept with settled := true }
          queue := queue
          last := some first.id
          visited := tree.visited + 1 })

def nextWeight? (tree : SearchTree W X) : Option W :=
  tree.queue.peek?.map (·.weight)

/-- The weight of the label taken last, which before the first one is the root's. Without a
label it is infinite. -/
def lastWeight (tree : SearchTree W X) : W :=
  match tree.last.bind tree.label? with
  | none => Weight.infinity
  | some label => label.weight

end SearchTree

end RouteSearch
