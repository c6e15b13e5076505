/-
This file lays out the edges of a network in one array with a cursor for every node: it counts the
edges at the nodes, adds up where the nodes begin, and writes every edge at its two ends.
-/

import RouteSearch.Network.Packed

namespace RouteSearch

/-- Rewrites the item at a place; there is no answer if the array has no such place. -/
def rewriteAt? {A : Type} (items : Array A) (place : Nat) (change : A → A) : Option (Array A) :=
  if place < items.size then some (items.modify place change) else none

/-- The array of slots while it is written, and the place where each node goes on. -/
structure Layout where
  cursors : Array Nat
  slots : Array Slot

/-- Writes a slot at the cursor of a node, and moves the cursor on. -/
def Layout.put? (layout : Layout) (node : NodeId) (slot : Slot) : Option Layout := do
  let place ← layout.cursors[node]?
  let slots ← rewriteAt? layout.slots place fun _ => slot
  let cursors ← rewriteAt? layout.cursors node (· + 1)
  pure ⟨cursors, slots⟩

/-- Where the slots of every node begin: behind those of the node before it. -/
def offsets? (degrees : Array Nat) (nodeCount : Nat) : Option (Array Nat) :=
  (List.range nodeCount).foldlM
    (fun offsets node => do
      let first ← offsets[node]?
      let degree ← degrees[node]?
      rewriteAt? offsets (node + 1) fun _ => first + degree)
    (Array.replicate (nodeCount + 1) 0)

namespace EdgeList

variable {W : Type} [Weight W]

/-- Every edge at its source and then, reversed, at its target, by the edges' ids. -/
def ends (list : EdgeList W) : List (NodeId × Slot) :=
  list.edges.toList.zipIdx.flatMap fun entry =>
    [(entry.1.source, ⟨entry.2, false⟩), (entry.1.target, ⟨entry.2, true⟩)]

/-- How many slots every node needs. -/
def degrees? (list : EdgeList W) : Option (Array Nat) :=
  list.ends.foldlM (fun degrees entry => rewriteAt? degrees entry.1 (· + 1))
    (Array.replicate list.nodeCount 0)

/-- The packed graph, written slot by slot. There is no answer if a place is outside an array. -/
def layOut? (list : EdgeList W) : Option (PackedGraph W) := do
  let degrees ← list.degrees?
  let starts ← offsets? degrees list.nodeCount
  let total ← starts[list.nodeCount]?
  let layout ← list.ends.foldlM (fun (layout : Layout) entry => layout.put? entry.1 entry.2)
    ⟨starts.extract 0 list.nodeCount, Array.replicate total ⟨0, false⟩⟩
  pure
    { nodeCount := list.nodeCount
      edges := list.edges
      starts := starts
      slots := layout.slots }

end EdgeList

end RouteSearch
