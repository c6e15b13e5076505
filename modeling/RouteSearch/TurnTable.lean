/-
This file keeps the rules for turns at junctions, and answers what a turn costs.
-/

import RouteSearch.Id
import RouteSearch.Weight
import Std.Data.HashMap
import Std.Data.HashSet

namespace RouteSearch

/-- The passage from one edge to another at a node. -/
structure Turn where
  source : EdgeId
  via : NodeId
  target : EdgeId
deriving DecidableEq, Hashable

/-- A ban forbids its turn; `only` forbids every turn from the same edge at the same node that
has no such rule; a penalty adds a cost. -/
inductive TurnRule (W : Type) where
  | ban (turn : Turn)
  | only (turn : Turn)
  | penalty (turn : Turn) (cost : W)

namespace TurnRule

variable {W : Type}

def turn : TurnRule W → Turn
  | .ban turn => turn
  | .only turn => turn
  | .penalty turn _ => turn

end TurnRule

/-- Few junctions have rules, so a turn at a node outside `junctions` is answered at once. -/
structure TurnTable (W : Type) where
  junctions : Std.HashSet NodeId := ∅
  bans : Std.HashSet Turn := ∅
  /-- The allowed continuations of an edge at a node. -/
  continuations : Std.HashMap (EdgeId × NodeId) (List EdgeId) := ∅
  penalties : Std.HashMap Turn W := ∅

namespace TurnTable

variable {W : Type}

def empty : TurnTable W := {}

def allow (table : TurnTable W) (turn : Turn) : TurnTable W :=
  let allowed := table.continuations.getD (turn.source, turn.via) []
  if allowed.contains turn.target then table
  else
    { table with
      continuations :=
        table.continuations.insert (turn.source, turn.via) (allowed ++ [turn.target]) }

/-- Adds one rule. A later penalty for the same turn replaces an earlier one. -/
def apply (table : TurnTable W) (rule : TurnRule W) : TurnTable W :=
  let table := { table with junctions := table.junctions.insert rule.turn.via }
  match rule with
  | .ban turn => { table with bans := table.bans.insert turn }
  | .only turn => table.allow turn
  | .penalty turn cost => { table with penalties := table.penalties.insert turn cost }

def ofRules (rules : List (TurnRule W)) : TurnTable W :=
  rules.foldl apply empty

def hasRules (table : TurnTable W) (node : NodeId) : Bool :=
  table.junctions.contains node

def junctionCount (table : TurnTable W) : Nat :=
  table.junctions.size

variable [Weight W]

/-- The cost of a turn. Without an edge before or after the node there is no turn. -/
def cost (table : TurnTable W) (turn : Turn) : W :=
  if turn.source = noEdge || turn.target = noEdge then Weight.zero
  else if !table.hasRules turn.via then Weight.zero
  else if table.bans.contains turn then Weight.infinity
  else if (table.continuations[(turn.source, turn.via)]?).any (!·.contains turn.target) then
    Weight.infinity
  else table.penalties.getD turn Weight.zero

end TurnTable

end RouteSearch
