/-
This file says what a search needs to know of a road network.
-/

import RouteSearch.Arc
import RouteSearch.RoutingError

namespace RouteSearch

/-- The view of an edge as a chain of original edges, if it is one. `chainEnds` gives the first
and the last of them in storage order. -/
def Arc.chained {W : Type} (chainEnds : EdgeId → Option (EdgeId × EdgeId)) (arc : Arc W) : Arc W :=
  match chainEnds arc.edge with
  | none => arc
  | some (first, last) =>
      if arc.reversed then { arc with firstEdge := last, lastEdge := first }
      else { arc with firstEdge := first, lastEdge := last }

structure Network (W : Type) where
  nodeCount : Nat
  edgeCount : Nat
  /-- The edges at a node, each seen from it. -/
  arcs : NodeId → List (Arc W)
  /-- The edge seen so that `far` is the given node. -/
  arcInto? : EdgeId → NodeId → Option (Arc W)

namespace Network

variable {W : Type}

def requireNode (network : Network W) (node : NodeId) : Except RoutingError Unit :=
  if node < network.nodeCount then .ok () else .error (.nodeNotFound node network.nodeCount)

def requireEdge (network : Network W) (edge : EdgeId) : Except RoutingError Unit :=
  if edge < network.edgeCount then .ok () else .error (.edgeNotFound edge network.edgeCount)

/-- The length of an edge on the way into `node`; zero where the edge has no such end. -/
def lengthInto [Weight W] (network : Network W) (edge : EdgeId) (node : NodeId) : W :=
  match network.arcInto? edge node with
  | some arc => arc.length
  | none => Weight.zero

/-- The network in which an edge may stand for a chain of original edges. -/
def withChains (network : Network W) (chainEnds : EdgeId → Option (EdgeId × EdgeId)) :
    Network W :=
  { network with
    arcs := fun node => (network.arcs node).map (Arc.chained chainEnds)
    arcInto? := fun edge node => (network.arcInto? edge node).map (Arc.chained chainEnds) }

end Network

end RouteSearch
