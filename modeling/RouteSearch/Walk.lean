/-
This file says what a way through a network is and what it costs, without a search.
-/

import RouteSearch.ArcFilter
import RouteSearch.Network
import RouteSearch.Pricing

namespace RouteSearch

/-- The arcs of a way in the order of travel. -/
abbrev Walk (W : Type) := List (Arc W)

namespace Walk

variable {W : Type}

/-- Every arc leaves the node where the one before has arrived. -/
def Connects (network : Network W) : NodeId → Walk W → NodeId → Prop
  | source, [], target => source = target
  | source, arc :: rest, target =>
      arc ∈ network.arcs source ∧ Connects network arc.far rest target

/-- Every arc is open in the direction of travel and accepted by the filter. -/
def Allowed [Weight W] (filter : Option (ArcFilter W)) (walk : Walk W) : Prop :=
  ∀ arc ∈ walk, arc.isOpen .forward = true ∧ filter.all (fun accepts => accepts arc) = true

/-- The walk begins over the first pin and ends over the second, where there is one. An empty
walk meets no pin. -/
def MeetsPins (pins : Sides (Option EdgeId)) (walk : Walk W) : Prop :=
  (∀ edge ∈ pins.forward, walk.head?.map (·.firstEdge) = some edge) ∧
    (∀ edge ∈ pins.backward, walk.getLast?.map (·.lastEdge) = some edge)

/-- The price of a walk that follows the edge `previous`. -/
def cost [Weight W] (pricing : Pricing W) : EdgeId → Walk W → W
  | _, [] => Weight.zero
  | previous, arc :: rest =>
      pricing.cost arc .forward previous + cost pricing arc.edge rest

/-- The price of the same walk as a backward search counts it: every arc is seen from its end,
and priced together with the turn into the edge ahead. -/
def costFromEnd [Weight W] (pricing : Pricing W) (next : EdgeId) : Walk W → W
  | [] => Weight.zero
  | [arc] => pricing.cost arc.flip .backward next
  | arc :: ahead :: rest =>
      pricing.cost arc.flip .backward ahead.edge + costFromEnd pricing next (ahead :: rest)

end Walk

end RouteSearch
