/-
This file describes the labels of a shortest-path tree and how they are made.
-/

import RouteSearch.Arc

namespace RouteSearch

abbrev LabelId := Nat

/-- The best known way to reach one state from the root of a search direction. A root has no
parent and comes over `noEdge`. The payload is the label maker's own. -/
structure Label (W X : Type) where
  edge : EdgeId
  node : NodeId
  weight : W
  parent : Option LabelId
  payload : X

namespace Label

variable {W X : Type}

def isRoot (label : Label W X) : Bool := label.parent.isNone

def text [Weight W] (label : Label W X) : String :=
  s!"{label.node} (edge {label.edge}, weight {Weight.text label.weight})"

/-- The label come to over `arc` from `parent` for the given weight. -/
def reach (arc : Arc W) (weight : W) (parent : LabelId) (payload : X) : Label W X where
  edge := arc.edge
  node := arc.far
  weight := weight
  parent := some parent
  payload := payload

/-- A cheaper way to the same state: edge, weight and parent are replaced. -/
def improve (label : Label W X) (arc : Arc W) (weight : W) (parent : LabelId) : Label W X :=
  { label with edge := arc.edge, weight := weight, parent := some parent }

end Label

/-- Makes the labels of a search. The maker may keep a state of its own. -/
structure LabelMaker (W X S : Type) where
  root : S → NodeId → W → Direction → Label W X × S
  create : S → Arc W → W → LabelId → Direction → Label W X × S
  update : S → Label W X → Arc W → W → LabelId → Direction → Label W X × S

namespace LabelMaker

variable {W : Type}

/-- Labels without a payload. -/
def plain : LabelMaker W Unit Unit where
  root := fun state node weight _ => (⟨noEdge, node, weight, none, ()⟩, state)
  create := fun state arc weight parent _ => (.reach arc weight parent (), state)
  update := fun state label arc weight parent _ => (label.improve arc weight parent, state)

end LabelMaker

/-- The history of a label: the direction it belongs to, the node the last arc came from, and
how often a cheaper way was found. -/
structure Trace where
  direction : Direction
  base : Option NodeId
  updates : Nat
deriving DecidableEq

namespace LabelMaker

variable {W : Type}

/-- Labels that carry their trace. -/
def traced : LabelMaker W Trace Unit where
  root := fun state node weight direction =>
    (⟨noEdge, node, weight, none, ⟨direction, none, 0⟩⟩, state)
  create := fun state arc weight parent direction =>
    (.reach arc weight parent ⟨direction, some arc.near, 0⟩, state)
  update := fun state label arc weight parent direction =>
    ({ label.improve arc weight parent with
        payload := ⟨direction, some arc.near, label.payload.updates + 1⟩ }, state)

end LabelMaker

end RouteSearch
