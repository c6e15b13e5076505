/-
This file prices the travel over an edge.
-/

import RouteSearch.Arc
import RouteSearch.TurnTable

namespace RouteSearch

/-- `cost arc direction neighbour` is the price of an arc that a forward search takes after the
edge `neighbour`, and a backward search before it. An infinite price forbids the travel. -/
structure Pricing (W : Type) where
  name : String
  cost : Arc W → Direction → EdgeId → W

namespace Pricing

variable {W : Type} [Weight W]

def shortest : Pricing W where
  name := "shortest"
  cost := fun arc _ _ => arc.length

/-- One metre per second, in kilometres per hour. -/
def metrePerSecond : W := Weight.decimal 36 1

/-- The seconds of travel at the edge's speed, which counts up to `maxSpeed` only. -/
def travelTime (maxSpeed : W) (arc : Arc W) (direction : Direction) : W :=
  let speed := Weight.smaller (arc.speed direction) maxSpeed
  if Weight.atMost speed Weight.zero then Weight.infinity
  else arc.length / (speed / metrePerSecond)

def fastest (maxSpeed : W) : Pricing W where
  name := "fastest"
  cost := fun arc direction _ => travelTime maxSpeed arc direction

/-- The turn at the near end: a forward search comes from `neighbour`, a backward search has
`neighbour` still ahead. -/
def turnAt (arc : Arc W) (direction : Direction) (neighbour : EdgeId) : Turn :=
  match direction with
  | .forward => ⟨neighbour, arc.near, arc.edge⟩
  | .backward => ⟨arc.edge, arc.near, neighbour⟩

/-- Going back over the edge just travelled has a price of its own. -/
def turnCost (table : TurnTable W) (uTurnCost : W) (turn : Turn) : W :=
  if turn.source = turn.target then uTurnCost else table.cost turn

def withTurns (inner : Pricing W) (table : TurnTable W) (uTurnCost : W) : Pricing W where
  name := "turn_cost"
  cost := fun arc direction neighbour =>
    let travel := inner.cost arc direction neighbour
    if neighbour = noEdge || Weight.isInfinite travel then travel
    else travel + turnCost table uTurnCost (turnAt arc direction neighbour)

end Pricing

/-- The pricings that can be asked for. -/
inductive CostModel (W : Type) where
  | shortest
  | fastest (maxSpeed : W)
  | turns (inner : CostModel W) (rules : List (TurnRule W)) (uTurnCost : W)

namespace CostModel

variable {W : Type} [Weight W]

def defaultMaxSpeed : W := Weight.decimal 130 0

def pricing : CostModel W → Pricing W
  | .shortest => .shortest
  | .fastest maxSpeed => .fastest maxSpeed
  | .turns inner rules uTurnCost => inner.pricing.withTurns (.ofRules rules) uTurnCost

end CostModel

end RouteSearch
