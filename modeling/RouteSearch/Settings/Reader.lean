/-
This file takes the settings of a search from a text or from a file.
-/

import RouteSearch.Settings.Document
import RouteSearch.Settings.Setting

namespace RouteSearch

namespace Setting

open Settings (Value)

/-- A kind of states is named by a string, or by the only key of a table that holds nothing else. -/
def stateKind? : Value → Option StateKind
  | .string name => StateKind.ofName? name
  | .table _ [(name, .emptyList)] => StateKind.ofName? name
  | .table _ [(name, .table _ [])] => StateKind.ofName? name
  | _ => none

def natural? : Value → Option Nat
  | .integer value => if 0 ≤ value then some value.toNat else none
  | _ => none

def boolean? : Value → Option Bool
  | .boolean value => some value
  | _ => none

/-- The setting that a named value stands for. A name that is no setting is refused. -/
def ofEntry? (entry : String × Value) : Option Setting :=
  match entry.1 with
  | "traversal_mode" => (stateKind? entry.2).map .stateKind
  | "max_visited_nodes" => (natural? entry.2).map .maxVisited
  | "timeout_ms" => (natural? entry.2).map .timeoutMs
  | "initial_capacity" => (natural? entry.2).map .initialCapacity
  | "update_best_path" => (boolean? entry.2).map .tracksMeeting
  | _ => none

end Setting

namespace Settings

def ofEntries? (entries : Entries) : Option Settings :=
  (entries.mapM Setting.ofEntry?).map ofList

/-- Settings that a text leaves out keep their defaults. Values are checked only once all of the
text has been understood. -/
def ofText (text : String) : Except RoutingError Settings :=
  match (Document.read? text).bind ofEntries? with
  | none => .error (.unreadableConfig "the text does not hold settings")
  | some settings =>
      match settings.check with
      | .error error => .error error
      | .ok () => .ok settings

/-- The settings in a file with the given bytes; `none` stands for a file that is not there. -/
def ofFile (contents : Option ByteArray) : Except RoutingError Settings :=
  match contents with
  | none => .error (.file "the file does not exist")
  | some bytes =>
      match String.fromUTF8? bytes with
      | none => .error (.file "the file does not hold UTF-8 text")
      | some text => ofText text

end Settings

end RouteSearch
