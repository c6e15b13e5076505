/-
This file holds the settings of a search.
-/

import RouteSearch.RoutingError
import RouteSearch.StateKind

namespace RouteSearch

/-- A limit that is not set does not hold. `tracksMeeting` lets the two trees look for each
other while they grow. -/
structure Settings where
  stateKind : StateKind := .nodeBased
  maxVisited : Option Nat := none
  timeoutMs : Option Nat := none
  initialCapacity : Option Nat := none
  tracksMeeting : Bool := true
deriving DecidableEq

namespace Settings

/-- A limit of zero would stop every search, so it is refused. -/
def check (settings : Settings) : Except RoutingError Unit :=
  if settings.maxVisited = some 0 then .error (.invalidConfig .noVisits)
  else if settings.timeoutMs = some 0 then .error (.invalidConfig .noTime)
  else .ok ()

/-- The time limit as whole seconds and the milliseconds that are left over. -/
def timeLimit? (settings : Settings) : Option (Nat × Nat) :=
  settings.timeoutMs.map fun milliseconds => (milliseconds / 1000, milliseconds % 1000)

/-- How many labels to make room for in each direction: a tenth of the nodes, within bounds. -/
def capacity (settings : Settings) (nodeCount : Nat) : Nat :=
  settings.initialCapacity.getD (max 200 (min 150000 (nodeCount / 10)))

end Settings

end RouteSearch
