/-
This file packs the edges at every node into one array, in which each node owns a range.
-/

import RouteSearch.Network.EdgeList

namespace RouteSearch

/-- An edge as it is listed at one of its ends. -/
structure Slot where
  edge : EdgeId
  reversed : Bool
deriving DecidableEq

/-- Node `v` owns the slots from `starts[v]` up to `starts[v + 1]`. -/
structure PackedGraph (W : Type) where
  nodeCount : Nat
  edges : Array (StoredEdge W)
  starts : Array Nat
  slots : Array Slot

namespace EdgeList

variable {W : Type} [Weight W]

/-- Lists an edge at its source and then, reversed, at its target. A loop is listed twice. -/
def distribute (buckets : Array (Array Slot)) (edge : EdgeId) (record : StoredEdge W) :
    Array (Array Slot) :=
  (buckets.modify record.source (·.push ⟨edge, false⟩)).modify record.target
    (·.push ⟨edge, true⟩)

/-- The slots of every node, in the order of the edges' ids. -/
def buckets (list : EdgeList W) : Array (Array Slot) :=
  list.edges.toList.zipIdx.foldl (fun buckets entry => distribute buckets entry.2 entry.1)
    (Array.replicate list.nodeCount #[])

/-- The sums of all initial runs of `sizes`, zero first. -/
def runningSums (sizes : List Nat) : List Nat :=
  sizes.scanl (· + ·) 0

def pack (list : EdgeList W) : PackedGraph W :=
  let buckets := list.buckets
  { nodeCount := list.nodeCount
    edges := list.edges
    starts := (runningSums (buckets.toList.map Array.size)).toArray
    slots := buckets.flatten }

end EdgeList

namespace PackedGraph

variable {W : Type}

def edgeCount (graph : PackedGraph W) : Nat := graph.edges.size

def arcAt? (graph : PackedGraph W) (slot : Slot) : Option (Arc W) :=
  graph.edges[slot.edge]?.map fun record => record.arc slot.edge slot.reversed

/-- The edges at a node, each seen from it; `none` for a node outside the graph. -/
def arcs? (graph : PackedGraph W) (node : NodeId) : Option (List (Arc W)) := do
  let first ← graph.starts[node]?
  let last ← graph.starts[node + 1]?
  pure ((graph.slots.extract first last).toList.filterMap graph.arcAt?)

/-- The edge seen on the way into `node`. A loop is seen along storage. -/
def arcInto? (graph : PackedGraph W) (edge : EdgeId) (node : NodeId) : Option (Arc W) :=
  match graph.edges[edge]? with
  | none => none
  | some record =>
      if record.target = node then some (record.arc edge false)
      else if record.source = node then some (record.arc edge true)
      else none

/-- The end of an edge that is not `node`; for any other node it is the source. -/
def otherEnd? (graph : PackedGraph W) (edge : EdgeId) (node : NodeId) : Option NodeId :=
  graph.edges[edge]?.map fun record =>
    if record.source = node then record.target else record.source

def network (graph : PackedGraph W) : Network W where
  nodeCount := graph.nodeCount
  edgeCount := graph.edgeCount
  arcs := fun node => (graph.arcs? node).getD []
  arcInto? := graph.arcInto?

end PackedGraph

end RouteSearch
