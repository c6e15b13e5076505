/-
This file collects the edges of a network, each stored once.
-/

import RouteSearch.Network

namespace RouteSearch

/-- A stored edge. A speed of zero closes that direction of travel. -/
structure StoredEdge (W : Type) where
  source : NodeId
  target : NodeId
  length : W
  speedAlong : W
  speedAgainst : W

namespace StoredEdge

variable {W : Type}

/-- The view of an edge from its source or, reversed, from its target. -/
def arc (record : StoredEdge W) (edge : EdgeId) (reversed : Bool) : Arc W where
  edge := edge
  near := if reversed then record.target else record.source
  far := if reversed then record.source else record.target
  reversed := reversed
  firstEdge := edge
  lastEdge := edge
  length := record.length
  speedOut := if reversed then record.speedAgainst else record.speedAlong
  speedIn := if reversed then record.speedAlong else record.speedAgainst

theorem flip_arc (record : StoredEdge W) (edge : EdgeId) (reversed : Bool) :
    (record.arc edge reversed).flip = record.arc edge (!reversed) := by
  cases reversed <;> rfl

variable [Weight W]

def speedByDefault : W := Weight.decimal 50 0

def oneWay (source target : NodeId) (length : W) : StoredEdge W :=
  ⟨source, target, length, speedByDefault, Weight.zero⟩

def twoWay (source target : NodeId) (length : W) : StoredEdge W :=
  ⟨source, target, length, speedByDefault, speedByDefault⟩

/-- Whether a length can be travelled: a number that is not below zero. -/
def hasLength (record : StoredEdge W) : Bool :=
  !(Weight.isNaN record.length || Weight.less record.length Weight.zero)

structure Fits (record : StoredEdge W) (nodeCount : Nat) : Prop where
  source_lt : record.source < nodeCount
  target_lt : record.target < nodeCount
  hasLength : record.hasLength = true

end StoredEdge

/-- Edges over the nodes below `nodeCount`; an edge's id is its place in the list. -/
structure EdgeList (W : Type) [Weight W] where
  nodeCount : Nat
  edges : Array (StoredEdge W)
  fits : ∀ record ∈ edges, record.Fits nodeCount

namespace EdgeList

variable {W : Type} [Weight W]

def empty (nodeCount : Nat) : EdgeList W where
  nodeCount := nodeCount
  edges := #[]
  fits := by simp

/-- Adds an edge at the end. The source is checked first, then the target, then the length. -/
def add (list : EdgeList W) (record : StoredEdge W) : Except RoutingError (EdgeList W) :=
  if source : record.source < list.nodeCount then
    if target : record.target < list.nodeCount then
      if length : record.hasLength then
        .ok
          { list with
            edges := list.edges.push record
            fits := by
              intro other member
              rcases Array.mem_push.mp member with old | rfl
              · exact list.fits other old
              · exact ⟨source, target, length⟩ }
      else
        .error (.invalidConfig
          (.badLength record.source record.target (Weight.text record.length)))
    else .error (.nodeNotFound record.target list.nodeCount)
  else .error (.nodeNotFound record.source list.nodeCount)

/-- Adds edges in order. The first one that cannot be added makes its error the answer. -/
def addAll (list : EdgeList W) (records : List (StoredEdge W)) :
    Except RoutingError (EdgeList W) :=
  records.foldlM add list

end EdgeList

end RouteSearch
