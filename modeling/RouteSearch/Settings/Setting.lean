/-
This file names the single settings and what each of them sets.
-/

import RouteSearch.Settings

namespace RouteSearch

inductive Setting where
  | stateKind (kind : StateKind)
  | maxVisited (count : Nat)
  | timeoutMs (milliseconds : Nat)
  | initialCapacity (capacity : Nat)
  | tracksMeeting (tracks : Bool)
deriving DecidableEq

namespace Setting

def name : Setting → String
  | .stateKind _ => "traversal_mode"
  | .maxVisited _ => "max_visited_nodes"
  | .timeoutMs _ => "timeout_ms"
  | .initialCapacity _ => "initial_capacity"
  | .tracksMeeting _ => "update_best_path"

def apply (settings : Settings) : Setting → Settings
  | .stateKind kind => { settings with stateKind := kind }
  | .maxVisited count => { settings with maxVisited := some count }
  | .timeoutMs milliseconds => { settings with timeoutMs := some milliseconds }
  | .initialCapacity capacity => { settings with initialCapacity := some capacity }
  | .tracksMeeting tracks => { settings with tracksMeeting := tracks }

end Setting

namespace Settings

/-- The defaults with the given settings on top. -/
def ofList (list : List Setting) : Settings :=
  list.foldl Setting.apply {}

end Settings

end RouteSearch
