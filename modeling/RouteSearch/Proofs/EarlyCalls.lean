/-
This file proves what calls do to a search before its query: runs and readings nothing, while an
advance ends the query at once, which is then answered from the first steps alone.
-/

import RouteSearch.Proofs.Aside
import Mathlib

namespace RouteSearch

variable {W X S : Type}

/-- Whether a call works on a search, but starts no query and sets nothing. -/
def Call.isIdle : Call W → Bool
  | .advance _ | .run | .result => true
  | _ => false

/-- A fresh search on which a filter and pins were set. -/
def Search.prepared (makerState : S) (filter : Option (ArcFilter W))
    (pins : Sides (Option EdgeId)) : Search W X S :=
  ((Search.fresh makerState).withFilter filter).withPins pins

variable [Weight W] {planner : Planner W X S} {search : Search W X S}

namespace Planner

/-- Answers a query from its first steps: it is started, and its result is read as if a direction
had finished. -/
def routeAtOnce (planner : Planner W X S) (source : NodeId) (sourceWeight : W) (target : NodeId)
    (targetWeight : W) (now : Nat) (direction : Direction) (search : Search W X S) :
    Except RoutingError (Option (Route W)) := do
  let begun ← planner.start source sourceWeight target targetWeight now search
  planner.result (begun.withTree direction ((begun.tree direction).finish true))

section Queried

variable (aside : Aside) (source target : NodeId) (sourceWeight targetWeight : W) (clock : Clock)

/-- A start that was noted before the query is forgotten. -/
theorem routeWeighted_unended (pins : aside.pins = search.pins)
    (ended : aside.ended = .both false) :
    (planner.routeWeighted source sourceWeight target targetWeight clock
        (search.beside aside)).1 =
      (planner.routeWeighted source sourceWeight target targetWeight clock search).1 := by
  unfold routeWeighted
  rw [planner.start_beside search aside source target sourceWeight targetWeight (clock 0)
    (clock 0) (.inr pins)]
  cases accepted : planner.start source sourceWeight target targetWeight (clock 0) search with
  | error fault => rfl
  | ok begun =>
      obtain ⟨samePins, startedAt⟩ := start_frame accepted
      have same : begun.beside { aside with startedAt := some (clock 0) } = begun :=
        Search.beside_eq_self (pins.trans samePins.symm) startedAt.symm ended
      dsimp only [Except.map]
      rw [same]

/-- A direction that has ended before the query ends it at once. -/
theorem routeWeighted_ended {direction : Direction} (pins : aside.pins = search.pins)
    (ended : aside.ended.get direction = true) :
    (planner.routeWeighted source sourceWeight target targetWeight clock
        (search.beside aside)).1 =
      planner.routeAtOnce source sourceWeight target targetWeight (clock 0) direction search := by
  unfold routeWeighted routeAtOnce
  rw [planner.start_beside search aside source target sourceWeight targetWeight (clock 0)
    (clock 0) (.inr pins)]
  cases planner.start source sourceWeight target targetWeight (clock 0) search with
  | error fault => rfl
  | ok begun =>
      have finished :
          (begun.beside { aside with startedAt := some (clock 0) }).finished = true := by
        apply Search.finished_of_tree direction
        rw [Search.tree_beside]
        exact (congrArg (begun.tree direction).finished.or ended).trans (Bool.or_true _)
      have finishedToo :
          (begun.withTree direction ((begun.tree direction).finish true)).finished = true := by
        apply Search.finished_of_tree direction
        rw [Search.tree_withTree]
        rfl
      dsimp only [Except.map]
      rw [run_of_finished finished]
      refine result_congr (finished.trans finishedToo.symm) rfl fun side id => ?_
      change ((begun.beside { aside with startedAt := some (clock 0) }).tree side).lineage? id = _
      rw [Search.tree_beside, SearchTree.endIf, SearchTree.lineage?_finish]
      rcases Direction.eq_or_opposite direction side with rfl | rfl
      · rw [Search.tree_withTree, SearchTree.lineage?_finish]
      · rw [Search.tree_opposite_withTree]

end Queried

end Planner

section Early

variable (makerState : S) (filter : Option (ArcFilter W)) (pins : Sides (Option EdgeId))
  (aside : Aside)

/-- An advance of a prepared search ends its direction. -/
theorem Search.prepared_advance (direction : Direction) :
    planner.advance direction ((Search.prepared makerState filter pins).beside aside) =
      (.exhausted, (Search.prepared makerState filter pins).beside
        { aside with ended := aside.ended.set direction true }) := by
  cases direction with
  | forward => rfl
  | backward => rfl

/-- A run of a prepared search ends at once, since nothing can improve on no meeting. -/
theorem Search.prepared_run
    (endless : Weight.atMost (Weight.infinity : W) (Weight.infinity + Weight.infinity) = true)
    (clock : Clock) :
    planner.run clock ((Search.prepared makerState filter pins).beside aside) =
      (Search.prepared makerState filter pins).beside
        { aside with startedAt := some (aside.startedAt.getD (clock 0)) } := by
  have beaten : (Search.prepared makerState filter pins : Search W X S).finished = true := endless
  have finished :
      ((Search.prepared makerState filter pins : Search W X S).beside aside).finished = true := by
    rw [Search.finished_beside, beaten]
    rfl
  rw [Planner.run_of_finished finished]
  rfl

/-- Idle calls on a prepared search note a time at most, and end the directions they advance. -/
theorem Planner.performAll_prepared
    (endless : Weight.atMost (Weight.infinity : W) (Weight.infinity + Weight.infinity) = true)
    (clock : Clock) {calls : List (Call W)} (idle : ∀ call ∈ calls, call.isIdle = true) :
    ∃ startedAt ended,
      (planner.performAll clock calls
          ((Search.prepared makerState filter pins).beside aside)).2 =
        (Search.prepared makerState filter pins).beside ⟨aside.pins, startedAt, ended⟩ ∧
      ∀ direction, ended.get direction = true ↔
        aside.ended.get direction = true ∨ Call.advance direction ∈ calls := by
  -- Every idle call leaves a prepared search again, with other things beside it.
  induction calls generalizing aside with
  | nil =>
      refine ⟨aside.startedAt, aside.ended, rfl, fun direction => ?_⟩
      simp only [List.not_mem_nil, or_false]
  | cons call calls ih =>
      have idleLater := fun later member => idle later (List.mem_cons_of_mem call member)
      cases call with
      | advance direction =>
          obtain ⟨startedAt, ended, after, isEnded⟩ :=
            ih { aside with ended := aside.ended.set direction true } idleLater
          refine ⟨startedAt, ended, ?_, fun side => ?_⟩
          · rw [← after, Planner.performAll]
            dsimp only [Planner.perform]
            rw [Search.prepared_advance]
          · rw [isEnded]
            dsimp only
            rcases Direction.eq_or_opposite direction side with rfl | rfl
            · rw [Sides.get_set]
              exact iff_of_true (.inl rfl) (.inr List.mem_cons_self)
            · have elsewhere : (.advance direction.opposite : Call W) ≠ .advance direction := by
                cases direction <;> nofun
              rw [Sides.get_opposite_set, List.mem_cons, or_iff_right elsewhere]
      | run =>
          obtain ⟨startedAt, ended, after, isEnded⟩ :=
            ih { aside with startedAt := some (aside.startedAt.getD (clock 0)) } idleLater
          refine ⟨startedAt, ended, ?_, fun side => ?_⟩
          · rw [← after, Planner.performAll]
            dsimp only [Planner.perform]
            rw [Search.prepared_run _ _ _ _ endless]
          · rw [isEnded]
            simp only [List.mem_cons, reduceCtorEq, false_or]
      | result =>
          obtain ⟨startedAt, ended, after, isEnded⟩ := ih aside idleLater
          refine ⟨startedAt, ended, after, fun side => ?_⟩
          rw [isEnded]
          simp only [List.mem_cons, reduceCtorEq, false_or]
      | start | route | pin | restrict => cases idle _ List.mem_cons_self

/-- Runs and readings before a query do not change its answer. An advance before it ends it at
once: it is refused as it would have been, or answered with what its first steps have met on. -/
theorem early_calls_end_query (planner : Planner W X S)
    (endless : Weight.atMost (Weight.infinity : W) (Weight.infinity + Weight.infinity) = true)
    (clock : Clock) {calls : List (Call W)} (idle : ∀ call ∈ calls, call.isIdle = true)
    {early : Search W X S}
    (called : (planner.performAll clock calls (.prepared makerState filter pins)).2 = early)
    (source target : NodeId) (later : Clock) :
    ((∀ direction, Call.advance direction ∉ calls) →
      (∀ sourceWeight targetWeight,
        (planner.routeWeighted source sourceWeight target targetWeight later early).1 =
          (planner.routeWeighted source sourceWeight target targetWeight later
            (.prepared makerState filter pins)).1) ∧
      ∀ sourceEdge targetEdge,
        (planner.route source sourceEdge target targetEdge later early).1 =
          (planner.route source sourceEdge target targetEdge later
            (.prepared makerState filter pins)).1) ∧
    ∀ direction, Call.advance direction ∈ calls →
      (∀ sourceWeight targetWeight,
        (planner.routeWeighted source sourceWeight target targetWeight later early).1 =
          planner.routeAtOnce source sourceWeight target targetWeight (later 0) direction
            (.prepared makerState filter pins)) ∧
      ∀ sourceEdge targetEdge,
        (planner.route source sourceEdge target targetEdge later early).1 =
          planner.routeAtOnce source Weight.zero target Weight.zero (later 0) direction
            (.prepared makerState filter ⟨sourceEdge, targetEdge⟩) := by
  obtain ⟨startedAt, ended, isEarly, isEnded⟩ := planner.performAll_prepared makerState filter pins
    ⟨pins, none, .both false⟩ endless clock idle
  have untouched : (Search.prepared makerState filter pins : Search W X S).beside
      ⟨pins, none, .both false⟩ = .prepared makerState filter pins := rfl
  rw [untouched, called] at isEarly
  subst isEarly
  have isEnded (direction : Direction) :
      ended.get direction = true ↔ Call.advance direction ∈ calls := by
    rw [isEnded, Sides.get_both, or_iff_right Bool.false_ne_true]
  refine ⟨fun unadvanced => ?_, fun direction advanced => ?_⟩
  · have unended : ended = .both false := by
      refine Sides.ext_get fun direction => ?_
      rw [Sides.get_both, Bool.eq_false_iff]
      exact fun isTrue => unadvanced direction ((isEnded direction).mp isTrue)
    refine ⟨fun sourceWeight targetWeight => ?_, fun sourceEdge targetEdge => ?_⟩
    · exact planner.routeWeighted_unended _ source target sourceWeight targetWeight later rfl
        unended
    · rw [planner.route_eq rfl, planner.route_eq rfl, Search.withPins_beside]
      exact planner.routeWeighted_unended _ source target Weight.zero Weight.zero later rfl unended
  · have isTrue := (isEnded direction).mpr advanced
    refine ⟨fun sourceWeight targetWeight => ?_, fun sourceEdge targetEdge => ?_⟩
    · exact planner.routeWeighted_ended _ source target sourceWeight targetWeight later rfl isTrue
    · rw [planner.route_eq rfl, Search.withPins_beside]
      exact planner.routeWeighted_ended _ source target Weight.zero Weight.zero later rfl isTrue

end Early

/-- Three short streets in a row, and a long one between their ends. -/
def EdgeList.detour : EdgeList Exact where
  nodeCount := 4
  edges := #[.twoWay 0 1 (.finite 1), .twoWay 1 2 (.finite 1), .twoWay 2 3 (.finite 1),
    .twoWay 0 3 (.finite 100)]
  fits := by
    intro record member
    simp only [List.mem_toArray, List.mem_cons, List.not_mem_nil, or_false] at member
    rcases member with rfl | rfl | rfl | rfl <;> exact ⟨by decide, by decide, by decide⟩

/-- A planner over the detour, which knows its states by their nodes. -/
def Planner.overDetour : Planner Exact Unit Unit where
  network := EdgeList.detour.pack.network
  pricing := .shortest
  settings := {}
  maker := .plain

theorem early_calls_end_query_detour :
    (Planner.overDetour.route 0 none 3 none (fun _ => 0)
        (Planner.overDetour.performAll (fun _ => 0) [.advance .forward, .run] (.fresh ())).2).1 =
      Planner.overDetour.routeAtOnce 0 Weight.zero 3 Weight.zero 0 .forward (.fresh ()) := by
  have idle : ∀ call ∈ ([.advance .forward, .run] : List (Call Exact)), call.isIdle = true :=
    List.forall_mem_cons.mpr ⟨rfl, List.forall_mem_singleton.mpr rfl⟩
  have ended := early_calls_end_query () none (.both none) Planner.overDetour rfl (fun _ => 0) idle
    rfl 0 3 fun _ => 0
  exact (ended.2 .forward List.mem_cons_self).2 none none

/-- After an advance before it, a query is answered with the long street. -/
theorem early_advance_lengthens_detour :
    (Planner.overDetour.route 0 none 3 none (fun _ => 0)
        (Planner.overDetour.performAll (fun _ => 0) [.advance .forward] (.fresh ())).2).1 =
        .ok (some ⟨.finite 100, .finite 100, [0, 3], [3]⟩) ∧
      (Planner.overDetour.route 0 none 3 none (fun _ => 0) (.fresh ())).1 =
        .ok (some ⟨.finite 3, .finite 3, [0, 1, 2, 3], [0, 1, 2]⟩) := by
  constructor
  · cbv
  · cbv

end RouteSearch
