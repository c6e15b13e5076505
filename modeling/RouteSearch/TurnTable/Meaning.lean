/-
This file says what a list of turn rules means, without a table.
-/

import RouteSearch.TurnTable

namespace RouteSearch.TurnRule

variable {W : Type}

def isBanOf (turn : Turn) : TurnRule W → Bool
  | .ban other => other = turn
  | _ => false

def isOnlyOf (turn : Turn) : TurnRule W → Bool
  | .only other => other = turn
  | _ => false

/-- Whether the rule names a continuation of the same edge at the same node. -/
def isOnlyFrom (turn : Turn) : TurnRule W → Bool
  | .only other => other.source = turn.source && other.via = turn.via
  | _ => false

def penaltyOf? (turn : Turn) : TurnRule W → Option W
  | .penalty other cost => if other = turn then some cost else none
  | _ => none

/-- Whether the rules forbid a turn: by a ban, or by naming other continuations only. -/
def forbids (rules : List (TurnRule W)) (turn : Turn) : Bool :=
  rules.any (isBanOf turn) || (rules.any (isOnlyFrom turn) && !rules.any (isOnlyOf turn))

/-- The cost of a turn under a list of rules. Of several penalties the last one holds. -/
def costOf [Weight W] (rules : List (TurnRule W)) (turn : Turn) : W :=
  if turn.source = noEdge || turn.target = noEdge then Weight.zero
  else if forbids rules turn then Weight.infinity
  else (rules.filterMap (penaltyOf? turn)).getLast?.getD Weight.zero

end RouteSearch.TurnRule
