/-
This file grows two shortest-path trees towards each other, one label at a time, and keeps the
best place where they meet.
-/

import RouteSearch.ArcFilter
import RouteSearch.Route
import RouteSearch.Settings
import RouteSearch.Pricing

namespace RouteSearch

/-- What stays fixed during a search. -/
structure Planner (W X S : Type) where
  network : Network W
  pricing : Pricing W
  settings : Settings
  maker : LabelMaker W X S

/-- A label of each tree, on one node, and the weight of the route through them. -/
structure Meeting (W : Type) where
  ends : Sides LabelId
  weight : W

inductive Limit where
  | visits
  | time
deriving DecidableEq

def Limit.name : Limit → String
  | .visits => "max_visited_nodes"
  | .time => "timeout"

/-- Whether a direction may go on, or has nothing left that could improve the result. -/
inductive Progress where
  | progressed
  | exhausted
deriving DecidableEq

/-- The state of one query. `pins` name the original edges that the first expansion of each
direction has to take. `limit` tells what stopped the last run. -/
structure Search (W X S : Type) where
  makerState : S
  filter : Option (ArcFilter W) := none
  pins : Sides (Option EdgeId) := .both none
  trees : Sides (SearchTree W X) := .both {}
  best : Option (Meeting W) := none
  updates : Nat := 0
  meetings : Nat := 0
  seeded : Bool := false
  startedAt : Option Nat := none
  limit : Option Limit := none

namespace Search

variable {W X S : Type}

def fresh (makerState : S) : Search W X S where
  makerState := makerState

def tree (search : Search W X S) (direction : Direction) : SearchTree W X :=
  search.trees.get direction

def withTree (search : Search W X S) (direction : Direction) (tree : SearchTree W X) :
    Search W X S :=
  { search with trees := search.trees.set direction tree }

def withFilter (search : Search W X S) (filter : Option (ArcFilter W)) : Search W X S :=
  { search with filter := filter }

def withPin (search : Search W X S) (direction : Direction) (edge : Option EdgeId) :
    Search W X S :=
  { search with pins := search.pins.set direction edge }

def isPinned (search : Search W X S) : Bool :=
  search.pins.forward.isSome || search.pins.backward.isSome

def visited (search : Search W X S) : Nat :=
  search.trees.forward.visited + search.trees.backward.visited

variable [Weight W]

def bestWeight (search : Search W X S) : W :=
  match search.best with
  | none => Weight.infinity
  | some meeting => meeting.weight

/-- Whether no label of the given weight, or above it, can improve the best meeting. -/
def isBeaten (search : Search W X S) (weight : W) : Bool :=
  Weight.atMost search.bestWeight weight

def finished (search : Search W X S) : Bool :=
  search.trees.forward.finished || search.trees.backward.finished ||
    search.isBeaten (search.trees.forward.lastWeight + search.trees.backward.lastWeight)

/-- Takes a meeting of a label of `direction` with one of the other tree if it is better than
the best so far. -/
def propose (search : Search W X S) (direction : Direction) (here there : LabelId) (weight : W) :
    Search W X S :=
  if Weight.less weight search.bestWeight then
    { search with
      best := some ⟨.oriented direction here there, weight⟩
      meetings := search.meetings + 1 }
  else search

end Search

namespace Planner

variable {W X S : Type}

def name (planner : Planner W X S) : String :=
  s!"dijkstrabi|{planner.pricing.name}|{planner.settings.stateKind.name}"

def isEdgeBased (planner : Planner W X S) : Bool :=
  planner.settings.stateKind.isEdgeBased

/-- Whether a search may look at an arc. A node-based search does not turn back on the edge it
came over; in an edge-based one the pricing decides about that. -/
def admits (planner : Planner W X S) (search : Search W X S) (step : Option (ArcFilter W))
    (incoming : EdgeId) (arc : Arc W) : Bool :=
  (planner.isEdgeBased || arc.edge != incoming) &&
    search.filter.all (fun accepts => accepts arc) && step.all (fun accepts => accepts arc)

variable [Weight W]

/-- The weight of the state reached over an arc from a label; infinite for a closed arc. -/
def reachWeight (planner : Planner W X S) (direction : Direction) (label : Label W X)
    (arc : Arc W) : W :=
  if ArcFilter.access direction arc then
    planner.pricing.cost arc direction label.edge + label.weight
  else Weight.infinity

/-- Enters a way to a state into the tree. A new state gets a label, a known one has its label
overwritten if the new way is cheaper. The answer is the label that was written, if any. -/
def record (planner : Planner W X S) (direction : Direction) (parent : LabelId) (arc : Arc W)
    (weight : W) (search : Search W X S) : Option (LabelId × Search W X S) :=
  let tree := search.tree direction
  let key := planner.settings.stateKind.key arc direction
  match tree.lookup? key with
  | none =>
      let (label, makerState) :=
        planner.maker.create search.makerState arc weight parent direction
      some (tree.size, { search.withTree direction (tree.add (some key) label) with
        makerState := makerState })
  | some id =>
      match tree.label? id with
      | none => none
      | some known =>
          if Weight.less weight known.weight then
            let (label, makerState) :=
              planner.maker.update search.makerState known arc weight parent direction
            some (id, { search.withTree direction ((tree.setLabel id label).reopen id) with
              makerState := makerState
              updates := search.updates + 1 })
          else none

/-- Checks whether a label just written connects to the other tree. In an edge-based search
both trees hold the edge they meet on, so this side steps back to the parent and the edge's own
weight is taken off. -/
def meet (planner : Planner W X S) (direction : Direction) (arc : Arc W) (id : LabelId)
    (search : Search W X S) : Search W X S :=
  let here := search.tree direction
  let there := search.tree direction.opposite
  match there.lookup? (planner.settings.stateKind.key arc direction) with
  | none => search
  | some other =>
      match here.label? id, there.label? other with
      | some label, some opposite =>
          let joined := label.weight + opposite.weight
          match planner.settings.stateKind, label.parent with
          | .nodeBased, _ => search.propose direction id other joined
          | .edgeBased, none => search
          | .edgeBased, some parent =>
              search.propose direction parent other
                (joined - planner.pricing.cost arc direction noEdge)
      | _, _ => search

/-- Looks from a label over one arc. -/
def relax (planner : Planner W X S) (direction : Direction) (step : Option (ArcFilter W))
    (id : LabelId) (label : Label W X) (search : Search W X S) (arc : Arc W) : Search W X S :=
  if planner.admits search step label.edge arc then
    let weight := planner.reachWeight direction label arc
    if Weight.isInfinite weight then search
    else
      match planner.record direction id arc weight search with
      | none => search
      | some (written, search) =>
          if planner.settings.tracksMeeting then planner.meet direction arc written search
          else search
  else search

/-- Looks from a label over all arcs at its node. The label counts as it was before. -/
def expand (planner : Planner W X S) (direction : Direction) (step : Option (ArcFilter W))
    (id : LabelId) (label : Label W X) (search : Search W X S) : Search W X S :=
  (planner.network.arcs label.node).foldl (planner.relax direction step id label) search

/-- Takes the cheapest open label of a direction and expands it, unless it had been taken
before or is beaten by the best meeting. -/
def settle (planner : Planner W X S) (direction : Direction) (step : Option (ArcFilter W))
    (search : Search W X S) : Progress × Search W X S :=
  match (search.tree direction).pop? with
  | none => (.exhausted, search)
  | some (id, seen, tree) =>
      let search := search.withTree direction tree
      match seen, tree.label? id with
      | false, some label =>
          if search.isBeaten label.weight then (.exhausted, search)
          else (.progressed, planner.expand direction step id label search)
      | _, _ => (.progressed, search)

/-- Settles one label, under a filter for this step only. A direction that is exhausted is
finished. -/
def advanceUnder (planner : Planner W X S) (direction : Direction) (step : Option (ArcFilter W))
    (search : Search W X S) : Progress × Search W X S :=
  match planner.settle direction step search with
  | (.progressed, search) => (.progressed, search)
  | (.exhausted, search) =>
      (.exhausted, search.withTree direction ((search.tree direction).finish true))

def advance (planner : Planner W X S) (direction : Direction) (search : Search W X S) :
    Progress × Search W X S :=
  planner.advanceUnder direction none search

/-- The route through the best meeting. There is none before the search has finished, or if the
trees did not meet. -/
def result (planner : Planner W X S) (search : Search W X S) :
    Except RoutingError (Option (Route W)) :=
  match search.finished, search.best with
  | true, some meeting =>
      if Weight.isFinite meeting.weight then
        match Route.between? planner.network search.trees meeting.ends meeting.weight with
        | none => .error .brokenTree
        | some route => .ok (some route)
      else .ok none
  | _, _ => .ok none

end Planner

end RouteSearch
