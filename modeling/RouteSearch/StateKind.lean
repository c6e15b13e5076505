/-
This file says which arrivals a search takes for the same state.
-/

import RouteSearch.Arc

namespace RouteSearch

/-- A search knows a state by its node, or by the edge and the sense it was travelled in. -/
inductive StateKind where
  | nodeBased
  | edgeBased
deriving DecidableEq

abbrev StateKey := Nat

namespace StateKind

variable {W : Type}

def name : StateKind → String
  | .nodeBased => "node_based"
  | .edgeBased => "edge_based"

def ofName? : String → Option StateKind
  | "node_based" => some .nodeBased
  | "edge_based" => some .edgeBased
  | _ => none

def isEdgeBased : StateKind → Bool
  | .nodeBased => false
  | .edgeBased => true

/-- The key of the state reached over an arc. The sense of travel is told against storage, so
that a forward and a backward search that travel an edge in one sense agree on the key. -/
def key (kind : StateKind) (arc : Arc W) (direction : Direction) : StateKey :=
  match kind with
  | .nodeBased => arc.far
  | .edgeBased => 2 * arc.edge + (arc.reversed ^^ direction.isBackward).toNat

end StateKind

end RouteSearch
