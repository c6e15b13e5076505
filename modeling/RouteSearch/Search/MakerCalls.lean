/-
This file notes the calls that a search makes to its label maker, and says which labels the calls
of a direction leave behind.
-/

import RouteSearch.Search.Payload

namespace RouteSearch

variable {W X S : Type}

/-- A call to a label maker, with the label that was made. -/
inductive MakerCall (W X : Type) where
  | root (node : NodeId) (weight : W) (direction : Direction) (made : Label W X)
  | create (arc : Arc W) (weight : W) (parent : LabelId) (direction : Direction)
      (made : Label W X)
  | update (held : Label W X) (arc : Arc W) (weight : W) (parent : LabelId)
      (direction : Direction) (made : Label W X)

namespace MakerCall

def direction : MakerCall W X → Direction
  | .root _ _ direction _ => direction
  | .create _ _ _ direction _ => direction
  | .update _ _ _ _ direction _ => direction

def isUpdate : MakerCall W X → Bool
  | .update .. => true
  | _ => false

/-- Whether the call made a new label for this direction. -/
def isNewFor (direction : Direction) (call : MakerCall W X) : Bool :=
  !call.isUpdate && call.direction = direction

end MakerCall

/-- The same maker, which notes the calls to it, the latest one at the end. -/
def LabelMaker.noting (maker : LabelMaker W X S) :
    LabelMaker W X (S × List (MakerCall W X)) where
  root := fun (state, calls) node weight direction =>
    let (made, state) := maker.root state node weight direction
    (made, state, calls ++ [.root node weight direction made])
  create := fun (state, calls) arc weight parent direction =>
    let (made, state) := maker.create state arc weight parent direction
    (made, state, calls ++ [.create arc weight parent direction made])
  update := fun (state, calls) held arc weight parent direction =>
    let (made, state) := maker.update state held arc weight parent direction
    (made, state, calls ++ [.update held arc weight parent direction made])

/-- The planner whose maker notes the calls to it. -/
def Planner.noting (planner : Planner W X S) : Planner W X (S × List (MakerCall W X)) :=
  planner.withMaker planner.maker.noting

/-- All labels of a tree, each at the place that its id names. -/
def SearchTree.labels (tree : SearchTree W X) : List (Label W X) :=
  tree.kept.toList.map (·.label)

/-- The calls of a direction make its labels. A new label stands at the end, and an update puts a
label in the place of one that is dearer than the new way. The other direction's calls change
nothing. -/
inductive MakerCall.Fill [Weight W] (direction : Direction) :
    List (MakerCall W X) → List (Label W X) → Prop
  | nothing : Fill direction [] []
  | root {calls labels} (node : NodeId) (weight : W) (made : Label W X)
      (before : Fill direction calls labels) :
      Fill direction (calls ++ [.root node weight direction made]) (labels ++ [made])
  | create {calls labels} (arc : Arc W) (weight : W) (parent : LabelId) (made : Label W X)
      (before : Fill direction calls labels) :
      Fill direction (calls ++ [.create arc weight parent direction made]) (labels ++ [made])
  | update {calls labels id held} (arc : Arc W) {weight : W} (parent : LabelId)
      (made : Label W X) (before : Fill direction calls labels) (atId : labels[id]? = some held)
      (less : Weight.less weight held.weight = true) :
      Fill direction (calls ++ [.update held arc weight parent direction made])
        (labels.set id made)
  | elsewhere {calls labels call} (before : Fill direction calls labels)
      (other : call.direction = direction.opposite) : Fill direction (calls ++ [call]) labels

end RouteSearch
