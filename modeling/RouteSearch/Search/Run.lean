/-
This file leads a query from its roots to the answer.
-/

import RouteSearch.Search

namespace RouteSearch

/-- `clock count` is the time in milliseconds at the reading with that number. -/
abbrev Clock := Nat → Nat

/-- The direction whose next label is cheaper, the forward one if they are equal. A direction
without open labels comes first, since it ends the search. -/
def Search.cheaperDirection {W X S : Type} [Weight W] (search : Search W X S) : Direction :=
  match search.trees.forward.nextWeight?, search.trees.backward.nextWeight? with
  | none, _ => .forward
  | some _, none => .backward
  | some forward, some backward =>
      if Weight.atMost forward backward then .forward else .backward

namespace Planner

variable {W X S : Type}

/-- Pins have to name edges of the network. -/
def checkPins (planner : Planner W X S) (pins : Sides (Option EdgeId)) :
    Except RoutingError Unit :=
  (pins.forward.toList ++ pins.backward.toList).forM planner.network.requireEdge

/-- What a query is refused for: a second use of the search, settings out of range, pins
without edge-based states, unknown nodes, unknown pins. The first fault is reported. -/
def check (planner : Planner W X S) (search : Search W X S) (source target : NodeId) :
    Except RoutingError Unit :=
  if search.seeded then .error .alreadyRun
  else do
    planner.settings.check
    if search.isPinned && !planner.isEdgeBased then
      .error (.invalidConfig .pinsNeedEdgeStates)
    else do
      planner.network.requireNode source
      planner.network.requireNode target
      planner.checkPins search.pins

variable [Weight W]

/-- Plants the root of a direction. Only a node-based search can come back to its root, so only
there it is indexed. -/
def plant (planner : Planner W X S) (direction : Direction) (node : NodeId) (weight : W)
    (search : Search W X S) : Search W X S :=
  let (label, makerState) := planner.maker.root search.makerState node weight direction
  let key := if planner.isEdgeBased then none else some node
  { search.withTree direction ((search.tree direction).addRoot key label) with
    makerState := makerState }

/-- The first expansion of a direction, held to its pin. -/
def expandRoot (planner : Planner W X S) (direction : Direction) (search : Search W X S) :
    Search W X S :=
  (planner.advanceUnder direction
    ((search.pins.get direction).map (ArcFilter.pinned · direction)) search).2

/-- Plants both roots and expands them. If source and target are one node the roots meet there;
for an edge-based search without pins this is the answer already. -/
def seed (planner : Planner W X S) (source : NodeId) (sourceWeight : W) (target : NodeId)
    (targetWeight : W) (now : Nat) (search : Search W X S) : Search W X S :=
  let roots : Sides LabelId := ⟨search.trees.forward.size, search.trees.backward.size⟩
  let search := { search with seeded := true, startedAt := some now }
  let search := planner.plant .forward source sourceWeight search
  let search := planner.plant .backward target targetWeight search
  let expandRoots (search : Search W X S) : Search W X S :=
    planner.expandRoot .backward (planner.expandRoot .forward search)
  if source = target then
    match planner.settings.stateKind with
    | .nodeBased =>
        if planner.settings.tracksMeeting then
          expandRoots { search with best := some ⟨roots, sourceWeight + targetWeight⟩ }
        else expandRoots search
    | .edgeBased =>
        if search.isPinned then expandRoots search
        else
          { search with
            best := some ⟨roots, Weight.zero⟩
            trees := search.trees.map (·.finish true) }
  else expandRoots search

/-- Starts a query with the given weights at its roots. A query that is refused leaves no
trace. -/
def start (planner : Planner W X S) (source : NodeId) (sourceWeight : W) (target : NodeId)
    (targetWeight : W) (now : Nat) (search : Search W X S) :
    Except RoutingError (Search W X S) := do
  planner.check search source target
  pure (planner.seed source sourceWeight target targetWeight now search)

def reachedLimit? (planner : Planner W X S) (search : Search W X S) (now : Nat) :
    Option Limit :=
  if planner.settings.maxVisited.any (· ≤ search.visited) then some .visits
  else
    match planner.settings.timeoutMs, search.startedAt with
    | some milliseconds, some started =>
        if started + milliseconds ≤ now then some .time else none
    | _, _ => none

/-- Advances until the search has finished or a limit is reached. There is no outcome if that
never comes. -/
def runToEnd? (planner : Planner W X S) (clock : Clock) (search : Search W X S) :
    Option (Search W X S) :=
  if search.finished then some { search with limit := none }
  else
    match planner.reachedLimit? search (clock 0) with
    | some limit => some { search with limit := some limit }
    | none =>
        planner |>.runToEnd? (fun reading => clock (reading + 1))
          (planner.advance search.cheaperDirection search).2
partial_fixpoint

/-- Runs a search to its end or to a limit. Time counts from the start of the query. If no end ever
comes, the search is left as it was. -/
def run (planner : Planner W X S) (clock : Clock) (search : Search W X S) : Search W X S :=
  let search := { search with startedAt := some (search.startedAt.getD (clock 0)) }
  (planner.runToEnd? (fun reading => clock (reading + 1)) search).getD search

/-- Answers a query: start, run, and read the result. The pins given here replace earlier ones,
also if the query is then refused. -/
def route (planner : Planner W X S) (source : NodeId) (sourceEdge : Option EdgeId)
    (target : NodeId) (targetEdge : Option EdgeId) (clock : Clock) (search : Search W X S) :
    Except RoutingError (Option (Route W)) × Search W X S :=
  if search.seeded then (.error .alreadyRun, search)
  else
    let search := { search with pins := ⟨sourceEdge, targetEdge⟩ }
    match planner.start source Weight.zero target Weight.zero (clock 0) search with
    | .error error => (.error error, search)
    | .ok search =>
        let search := planner.run (fun reading => clock (reading + 1)) search
        (planner.result search, search)

/-- Answers many queries, each by a search of its own. -/
def routeAll (planner : Planner W X S) (makerState : S) (clock : Clock)
    (queries : List (NodeId × NodeId)) : List (Except RoutingError (Option (Route W))) :=
  queries.map fun (source, target) =>
    (planner.route source none target none clock (.fresh makerState)).1

end Planner

end RouteSearch
