/-
This file lists the ways to ask for a new edge, and carries out sequences of such calls.
-/

import RouteSearch.Network.EdgeList

namespace RouteSearch

variable {W : Type}

inductive EdgeCall (W : Type) where
  | edge (record : StoredEdge W)
  | oneWay (source target : NodeId) (length : W)
  | twoWay (source target : NodeId) (length : W)

variable [Weight W]

/-- The edge that a call asks for. -/
def EdgeCall.record : EdgeCall W → StoredEdge W
  | .edge record => record
  | .oneWay source target length => .oneWay source target length
  | .twoWay source target length => .twoWay source target length

namespace EdgeList

/-- Carries out one call, and answers with the id of the new edge. A call that is refused leaves
the list as it was. -/
def perform (call : EdgeCall W) (list : EdgeList W) : Except RoutingError EdgeId × EdgeList W :=
  match list.add call.record with
  | .error error => (.error error, list)
  | .ok longer => (.ok list.edges.size, longer)

/-- Carries out calls one after another and lists their answers. -/
def performAll : List (EdgeCall W) → EdgeList W → List (Except RoutingError EdgeId) × EdgeList W
  | [], list => ([], list)
  | call :: calls, list =>
      let (answer, list) := perform call list
      let (answers, list) := performAll calls list
      (answer :: answers, list)

end EdgeList

end RouteSearch
