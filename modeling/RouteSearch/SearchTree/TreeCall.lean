/-
This file lists the calls that change a search tree and the events that come of them, and says
what a record of events tells about the tree.
-/

import RouteSearch.SearchTree

namespace RouteSearch

variable {W X : Type}

inductive TreeCall (W X : Type) where
  | addRoot (key : Option StateKey) (label : Label W X)
  | add (key : StateKey) (label : Label W X)
  | replace (id : LabelId) (label : Label W X)
  | reopen (id : LabelId)
  | pop

/-- What came of a call. Nothing comes of a call for an id without a label, nor of a pop from an
empty queue. -/
inductive TreeEvent (W : Type) where
  | entered (id : LabelId) (key : Option StateKey) (weight : W)
  | replaced (id : LabelId) (weight : W)
  | reopened (id : LabelId) (weight : W)
  | taken (id : LabelId) (again : Bool)
  | nothing
deriving DecidableEq

namespace SearchTree

variable [Weight W]

def perform (call : TreeCall W X) (tree : SearchTree W X) : TreeEvent W × SearchTree W X :=
  match call with
  | .addRoot key label => (.entered tree.size key label.weight, tree.addRoot key label)
  | .add key label => (.entered tree.size (some key) label.weight, tree.add (some key) label)
  | .replace id label =>
      match tree.label? id with
      | none => (.nothing, tree)
      | some _ => (.replaced id label.weight, tree.setLabel id label)
  | .reopen id =>
      match tree.label? id with
      | none => (.nothing, tree)
      | some label => (.reopened id label.weight, tree.reopen id)
  | .pop =>
      match tree.pop? with
      | none => (.nothing, tree)
      | some (id, again, tree) => (.taken id again, tree)

/-- Carries out calls one after another and records their events. -/
def performAll : List (TreeCall W X) → SearchTree W X → List (TreeEvent W) × SearchTree W X
  | [], tree => ([], tree)
  | call :: calls, tree =>
      let (event, tree) := perform call tree
      let (events, tree) := performAll calls tree
      (event :: events, tree)

end SearchTree

/-- The value noted last under a key. -/
def lastNoted {Event Key Value : Type} [BEq Key] (note : Event → Option (Key × Value))
    (past : List Event) (key : Key) : Option Value :=
  (past.filterMap note).reverse.lookup key

namespace TreeEvent

def isEntry : TreeEvent W → Bool
  | .entered .. => true
  | _ => false

def isTaking : TreeEvent W → Bool
  | .taken .. => true
  | _ => false

def takes (id : LabelId) : TreeEvent W → Bool
  | .taken other _ => other == id
  | _ => false

/-- The weight with which a label came into the queue, or none if it left. -/
def queueNote : TreeEvent W → Option (LabelId × Option W)
  | .entered id _ weight | .reopened id weight => some (id, some weight)
  | .taken id _ => some (id, none)
  | _ => none

/-- The weight that a label got. -/
def weightNote : TreeEvent W → Option (LabelId × W)
  | .entered id _ weight | .replaced id weight => some (id, weight)
  | _ => none

/-- The label that was entered under a key. -/
def keyNote : TreeEvent W → Option (StateKey × LabelId)
  | .entered id (some key) _ => some (key, id)
  | _ => none

/-- The labels that came into the queue and did not leave it since, in the order of their ids. -/
def openLabels (past : List (TreeEvent W)) : List (Queued W) :=
  (List.range (past.countP isEntry)).filterMap fun id =>
    (lastNoted queueNote past id).join.map (Queued.mk id)

end TreeEvent

end RouteSearch
