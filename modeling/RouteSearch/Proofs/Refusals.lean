/-
This file proves that a call which is refused changes nothing but the pins, and that no later call
can tell, unless it starts a query under these pins.
-/

import RouteSearch.Proofs.Likeness
import RouteSearch.Proofs.PinnedEnds

namespace RouteSearch

variable {W X S : Type}

/-- The pins that a search has after the call was refused. -/
def Call.leftPins (call : Call W) (search : Search W X S) : Sides (Option EdgeId) :=
  match call with
  | .route _ sourceEdge _ targetEdge =>
      if search.seeded then search.pins else ⟨sourceEdge, targetEdge⟩
  | _ => search.pins

/-- The directions whose pins a search still has after the call was refused. -/
def Call.keeps (call : Call W) (search : Search W X S) : Sides Bool :=
  ⟨(call.leftPins search).forward == search.pins.forward,
    (call.leftPins search).backward == search.pins.backward⟩

theorem Call.leftPins_of_keeps {call : Call W} {search : Search W X S} {direction : Direction}
    (kept : (call.keeps search).get direction = true) :
    (call.leftPins search).get direction = search.pins.get direction := by
  cases direction with
  | forward => exact eq_of_beq kept
  | backward => exact eq_of_beq kept

variable [Weight W] {planner : Planner W X S} {search : Search W X S} {clock other : Clock}
  {call : Call W} {fault : RoutingError}

/-- Nothing can go wrong with reading an answer but a broken tree. -/
theorem Planner.result_eq_error (wrong : planner.result search = .error fault) :
    fault = .brokenTree := by
  unfold result at wrong
  split at wrong
  · split at wrong
    · split at wrong
      · cases wrong
        rfl
      · cases wrong
    · cases wrong
  · cases wrong

/-- A query that is refused leaves the search as it was, under the pins that it has. -/
theorem Planner.routeWeighted_refused {source target : NodeId} {sourceWeight targetWeight : W}
    (refused : (planner.routeWeighted source sourceWeight target targetWeight clock search).1 =
      .error fault) (proper : fault ≠ .brokenTree) :
    (planner.routeWeighted source sourceWeight target targetWeight clock search).2 = search := by
  unfold routeWeighted at refused ⊢
  split at refused
  · rfl
  · exact absurd (planner.result_eq_error refused) proper

theorem Planner.perform_refused (refused : (planner.perform clock call search).1 = .refused fault)
    (proper : fault ≠ .brokenTree) :
    (planner.perform clock call search).2 = search.withPins (call.leftPins search) := by
  cases call with
  | start source sourceWeight target targetWeight =>
      unfold perform at refused ⊢
      dsimp only at refused ⊢
      split at refused
      · rfl
      · cases refused
  | run => cases refused
  | advance direction => cases refused
  | result => rfl
  | route source sourceEdge target targetEdge =>
      have wrong : (planner.route source sourceEdge target targetEdge clock search).1 =
          .error fault := by
        unfold perform Answer.ofRoute at refused
        dsimp only at refused
        split at refused
        · rename_i error answer
          cases refused
          exact answer
        · cases refused
      change (planner.route source sourceEdge target targetEdge clock search).2 =
        search.withPins (if search.seeded then search.pins else ⟨sourceEdge, targetEdge⟩)
      cases seeded : search.seeded with
      | true =>
          rw [planner.route_again seeded, if_pos rfl]
          rfl
      | false =>
          rw [planner.route_eq seeded] at wrong ⊢
          rw [planner.routeWeighted_refused wrong proper, if_neg Bool.false_ne_true]
  | pin direction edge => cases refused
  | restrict filter => cases refused

/-- A call that is refused leaves the search as it was, except that a query which brings its pins
along leaves them behind. The calls that follow are answered as if it had not been made, and make
the same of the search but for its pins, as long as none of them starts a query under a pin that
was left behind. -/
theorem refused_leaves_pins (refused : (planner.perform clock call search).1 = .refused fault)
    (proper : fault ≠ .brokenTree) :
    (planner.perform clock call search).2 = search.withPins (call.leftPins search) ∧
      ∀ later other, search.seeded = true ∨ Call.OwnPins (call.keeps search) later →
        ∃ pins, planner.performAll other later (planner.perform clock call search).2 =
          ((planner.performAll other later search).1,
            (planner.performAll other later search).2.withPins pins) := by
  have left := planner.perform_refused refused proper
  refine ⟨left, fun later other own => ?_⟩
  have shares : search.Shares (call.keeps search) (call.leftPins search) :=
    .inr fun _ => Call.leftPins_of_keeps
  rw [left]
  exact planner.performAll_withPins later shares own

/-- A query over the twin streets that asks for an edge which they do not have is refused. -/
theorem Planner.overTwins_refused :
    (Planner.overTwins.perform (fun _ => 0) (.route 0 (some 5) 1 none) (.fresh ())).1 =
      .refused (.edgeNotFound 5 2) := by
  cbv

theorem refused_leaves_pins_twins :
    (Planner.overTwins.perform (fun _ => 0) (.route 0 (some 5) 1 none) (.fresh ())).1 =
        .refused (.edgeNotFound 5 2) ∧
      (Planner.overTwins.perform (fun _ => 0) (.route 0 (some 5) 1 none) (.fresh ())).2 =
        Search.withPins (.fresh ()) ⟨some 5, none⟩ ∧
      ∃ pins, Planner.overTwins.performAll (fun _ => 0) [.route 0 none 1 none, .result]
          (Planner.overTwins.perform (fun _ => 0) (.route 0 (some 5) 1 none) (.fresh ())).2 =
        ((Planner.overTwins.performAll (fun _ => 0) [.route 0 none 1 none, .result]
            (.fresh ())).1,
          (Planner.overTwins.performAll (fun _ => 0) [.route 0 none 1 none, .result]
            (.fresh ())).2.withPins pins) := by
  obtain ⟨left, later⟩ := refused_leaves_pins Planner.overTwins_refused nofun
  exact ⟨Planner.overTwins_refused, left, later _ _ (.inr ⟨nofun, nofun, trivial⟩)⟩

/-- The pin that a refused query leaves behind has the next one refused, which asks for no edge
and would have been accepted. -/
theorem refused_spoils_start_twins :
    (Planner.overTwins.performAll (fun _ => 0)
        [.route 0 (some 5) 1 none, .start 0 Weight.zero 1 Weight.zero] (.fresh ())).1 =
        [.refused (.edgeNotFound 5 2), .refused (.edgeNotFound 5 2)] ∧
      (Planner.overTwins.performAll (fun _ => 0) [.start 0 Weight.zero 1 Weight.zero]
        (.fresh ())).1 = [.done] := by
  constructor
  · cbv
  · cbv

end RouteSearch
