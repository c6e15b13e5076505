/-
This file reads a route from two search trees that meet.
-/

import RouteSearch.Network
import RouteSearch.SearchTree

namespace RouteSearch

/-- Nodes and edges run from source to target, and there is one node more than edges. -/
structure Route (W : Type) where
  weight : W
  length : W
  nodes : List NodeId
  edges : List EdgeId

/-- The edge a label came over, with the node of its parent. -/
structure Hop where
  edge : EdgeId
  parentNode : NodeId

namespace Route

variable {W X : Type}

/-- The hops along a chain of labels, from its head towards the root. -/
def hops : List (Label W X) → List Hop
  | label :: parent :: rest => ⟨label.edge, parent.node⟩ :: hops (parent :: rest)
  | _ => []

/-- Joins two chains that start at the meeting: the forward one is run through from its root,
the backward one towards its root. Lengths are added in the order of travel. -/
def splice [Weight W] (network : Network W) (weight : W) (forward backward : List (Label W X)) :
    Route W :=
  let travelled := (hops forward).reverse ++ hops backward
  { weight := weight
    length := travelled.foldl
      (fun length hop => length + network.lengthInto hop.edge hop.parentNode) Weight.zero
    nodes := (forward.map (·.node)).reverse ++ (backward.map (·.node)).tail
    edges := travelled.map (·.edge) }

/-- The route that meets at the two given labels, if both chains lead to a root. -/
def between? [Weight W] (network : Network W) (trees : Sides (SearchTree W X))
    (ends : Sides LabelId) (weight : W) : Option (Route W) := do
  let forward ← trees.forward.lineage? ends.forward
  let backward ← trees.backward.lineage? ends.backward
  pure (splice network weight forward backward)

end Route

end RouteSearch
