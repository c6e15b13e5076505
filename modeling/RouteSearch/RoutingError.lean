/-
This file lists what can be wrong with a request, and the sentence that reports it.
-/

import RouteSearch.Id

namespace RouteSearch

/-- Why settings or arguments cannot be used. -/
inductive ConfigFault where
  | noVisits
  | noTime
  | pinsNeedEdgeStates
  | badLength (source target : NodeId) (length : String)
  /-- A fault found outside this library, in its own words. -/
  | described (text : String)
deriving DecidableEq

def ConfigFault.message : ConfigFault → String
  | .noVisits => "max_visited_nodes must be > 0"
  | .noTime => "timeout_ms must be > 0"
  | .pinsNeedEdgeStates => "pinned edges require edge-based traversal"
  | .badLength source target length =>
      s!"edge {source}->{target} has invalid distance {length}"
  | .described text => text

inductive RoutingError where
  | nodeNotFound (node : NodeId) (nodeCount : Nat)
  | edgeNotFound (edge : EdgeId) (edgeCount : Nat)
  | alreadyRun
  | invalidConfig (fault : ConfigFault)
  | unreadableConfig (detail : String)
  | file (detail : String)
  /-- A search tree whose parent links never reach a root. -/
  | brokenTree
deriving DecidableEq

namespace RoutingError

def message : RoutingError → String
  | .nodeNotFound node nodeCount => s!"Node {node} not found (graph has {nodeCount} nodes)"
  | .edgeNotFound edge edgeCount => s!"Edge {edge} not found (graph has {edgeCount} edges)"
  | .alreadyRun => "Search already ran; create a new search object per query"
  | .invalidConfig fault => s!"Invalid configuration: {fault.message}"
  | .unreadableConfig detail => s!"Failed to parse configuration: {detail}"
  | .file detail => s!"I/O error: {detail}"
  | .brokenTree => "Search tree without a root"

/-- Only a file error reports another error beneath it. -/
def hasSource : RoutingError → Bool
  | .file _ => true
  | _ => false

end RoutingError

end RouteSearch
