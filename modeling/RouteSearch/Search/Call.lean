/-
This file lists what can be asked of a search, and carries out sequences of such calls.
-/

import RouteSearch.Search.Run

namespace RouteSearch

inductive Call (W : Type) where
  | start (source : NodeId) (sourceWeight : W) (target : NodeId) (targetWeight : W)
  | run
  | advance (direction : Direction)
  | result
  | route (source : NodeId) (sourceEdge : Option EdgeId) (target : NodeId)
      (targetEdge : Option EdgeId)
  | pin (direction : Direction) (edge : Option EdgeId)
  | restrict (filter : Option (ArcFilter W))

inductive Answer (W : Type) where
  | done
  | refused (error : RoutingError)
  | progress (progress : Progress)
  | route (found : Option (Route W))

def Answer.ofRoute {W : Type} : Except RoutingError (Option (Route W)) → Answer W
  | .error error => .refused error
  | .ok found => .route found

namespace Planner

variable {W X S : Type} [Weight W]

/-- Carries out one call. A query that is refused leaves the search as it was, but for the pins
that it brought along. -/
def perform (planner : Planner W X S) (clock : Clock) (call : Call W) (search : Search W X S) :
    Answer W × Search W X S :=
  match call with
  | .start source sourceWeight target targetWeight =>
      match planner.start source sourceWeight target targetWeight (clock 0) search with
      | .error error => (.refused error, search)
      | .ok search => (.done, search)
  | .run => (.done, planner.run clock search)
  | .advance direction =>
      let (progress, search) := planner.advance direction search
      (.progress progress, search)
  | .result => (.ofRoute (planner.result search), search)
  | .route source sourceEdge target targetEdge =>
      let (answer, search) := planner.route source sourceEdge target targetEdge clock search
      (.ofRoute answer, search)
  | .pin direction edge => (.done, search.withPin direction edge)
  | .restrict filter => (.done, search.withFilter filter)

/-- Carries out calls one after another and lists their answers. -/
def performAll (planner : Planner W X S) (clock : Clock) :
    List (Call W) → Search W X S → List (Answer W) × Search W X S
  | [], search => ([], search)
  | call :: calls, search =>
      let (answer, search) := planner.perform clock call search
      let (answers, search) := planner.performAll clock calls search
      (answer :: answers, search)

end Planner

end RouteSearch
