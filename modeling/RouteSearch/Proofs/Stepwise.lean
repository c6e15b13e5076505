/-
This file proves that a query which brings its pins along does what setting these pins, starting,
running and reading the result do one after another.
-/

import RouteSearch.Proofs.Aside
import RouteSearch.Proofs.PinnedEnds

namespace RouteSearch

variable {W X S : Type} [Weight W] {planner : Planner W X S} {search : Search W X S}

namespace Planner

/-- A query starts the same at any time, but for its start. -/
theorem start_anytime (planner : Planner W X S) (search : Search W X S) (source target : NodeId)
    (sourceWeight targetWeight : W) (now later : Nat) :
    planner.start source sourceWeight target targetWeight later search =
      (planner.start source sourceWeight target targetWeight now search).map fun begun =>
        { begun with startedAt := some later } := by
  have besides := planner.start_beside search ⟨search.pins, search.startedAt, .both false⟩ source
    target sourceWeight targetWeight now later (.inr rfl)
  rw [Search.beside_eq_self rfl rfl rfl] at besides
  rw [besides]
  cases accepted : planner.start source sourceWeight target targetWeight now search with
  | error fault => rfl
  | ok begun => exact congrArg Except.ok (Search.beside_eq (start_frame accepted).1.symm rfl)

/-- A run does the same at any time, but for the start of the query, if time is not limited. -/
theorem run_anytime (noTime : planner.settings.timeoutMs = none) (clock other : Clock)
    (startedAt : Option Nat) :
    planner.run other { search with startedAt := startedAt } =
      { planner.run clock search with startedAt := some (startedAt.getD (other 0)) } := by
  have begun : search.beside ⟨search.pins, startedAt, .both false⟩ =
      { search with startedAt := startedAt } := Search.beside_eq rfl rfl
  rw [← begun, run_beside rfl (.inl noTime),
    Search.beside_eq (planner.run_frame clock search).1.symm rfl]

end Planner

/-- Without a limit on time, a query that brings its pins along is answered like the same search
on which these pins are set, which is then started with nothing at its roots, run, and asked for
the result. Both searches are the same afterwards, but for the time of their start. -/
theorem route_stepwise (noTime : planner.settings.timeoutMs = none)
    (unseeded : search.seeded = false) (source target : NodeId)
    (sourceEdge targetEdge : Option EdgeId) (clock other : Clock) :
    (∃ fault after,
      planner.perform clock (.route source sourceEdge target targetEdge) search =
        (.refused fault, after) ∧
      planner.performAll other [.pin .forward sourceEdge, .pin .backward targetEdge,
          .start source Weight.zero target Weight.zero] search =
        ([.done, .done, .refused fault], after)) ∨
    ∃ answer after,
      planner.perform clock (.route source sourceEdge target targetEdge) search =
        (answer, after) ∧
      planner.performAll other [.pin .forward sourceEdge, .pin .backward targetEdge,
          .start source Weight.zero target Weight.zero, .run, .result] search =
        ([.done, .done, .done, .done, answer], { after with startedAt := some (other 0) }) := by
  have pinned : (search.withPin .forward sourceEdge).withPin .backward targetEdge =
      search.withPins ⟨sourceEdge, targetEdge⟩ := rfl
  have anytime := planner.start_anytime (search.withPins ⟨sourceEdge, targetEdge⟩) source target
    Weight.zero Weight.zero (clock 0) (other 0)
  simp only [Planner.performAll, Planner.perform, pinned, planner.route_eq unseeded,
    Planner.routeWeighted, anytime]
  cases planner.start source Weight.zero target Weight.zero (clock 0)
      (search.withPins ⟨sourceEdge, targetEdge⟩) with
  | error fault => exact .inl ⟨fault, _, rfl, rfl⟩
  | ok begun =>
      refine .inr ⟨_, _, rfl, ?_⟩
      dsimp only [Except.map]
      rw [planner.run_anytime noTime fun reading => clock (reading + 1)]
      rfl

theorem route_stepwise_twins : ∃ answer after,
    Planner.overTwins.perform (fun _ => 0) (.route 0 (some 1) 1 none) (.fresh ()) =
        (answer, after) ∧
      Planner.overTwins.performAll (fun _ => 0) [.pin .forward (some 1), .pin .backward none,
          .start 0 Weight.zero 1 Weight.zero, .run, .result] (.fresh ()) =
        ([.done, .done, .done, .done, answer], { after with startedAt := some 0 }) := by
  have started : (Planner.overTwins.performAll (fun _ => 0) [.pin .forward (some 1),
      .pin .backward none, .start 0 Weight.zero 1 Weight.zero] (.fresh ())).1 =
      [.done, .done, .done] := by
    cbv
  have noTime : Planner.overTwins.settings.timeoutMs = none := rfl
  have unseeded : (.fresh () : Search Exact Unit Unit).seeded = false := rfl
  rcases route_stepwise noTime unseeded 0 1 (some 1) none (fun _ => 0) (fun _ => 0) with
    ⟨fault, after, _, refused⟩ | answered
  · rw [refused] at started
    cases started
  · exact answered

/-- A query that brings no pins along clears the pin that was set before it. It is answered with
the shorter of the twin streets, where its steps take the other one, over which the route has to
leave. -/
theorem route_clears_pin_twins :
    (Planner.overTwins.performAll (fun _ => 0) [.pin .forward (some 1), .route 0 none 1 none]
        (.fresh ())).1 = [.done, .route (some ⟨.finite 100, .finite 100, [0, 1], [0]⟩)] ∧
      (Planner.overTwins.performAll (fun _ => 0) [.pin .forward (some 1),
          .start 0 Weight.zero 1 Weight.zero, .run, .result] (.fresh ())).1 =
        [.done, .done, .done, .route (some ⟨.finite 200, .finite 200, [0, 1], [1]⟩)] := by
  constructor
  · cbv
  · cbv

end RouteSearch
