/-
This file names the ids of nodes and edges.
-/

namespace RouteSearch

abbrev NodeId := Nat

abbrev EdgeId := Nat

/-- The largest 32-bit id stands for the absence of an edge. -/
def noEdge : EdgeId := 4294967295

end RouteSearch
