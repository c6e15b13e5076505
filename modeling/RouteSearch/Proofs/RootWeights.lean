/-
This file proves that weights at the roots of a query shift what its answer weighs, unless the
answer was found immediately.
-/

import RouteSearch.Proofs.Answer
import RouteSearch.Proofs.Calls

namespace RouteSearch

variable {X S : Type} {planner : Planner Exact X S} {search : Search Exact X S}
  {list : EdgeList Exact}

/-- What the answer weighs more for the weights at the roots: their sum, but nothing if there was
nothing to look for. -/
def Planner.rootShift (planner : Planner Exact X S) (search : Search Exact X S)
    (source target : NodeId) (weights : Sides Rat) : Rat :=
  if planner.isEdgeBased = true ∧ source = target ∧ search.isPinned = false then 0
  else weights.forward + weights.backward

theorem Search.IsUnused.blank (unused : search.IsUnused) : search.Blank where
  trees side := ⟨false, by rw [Search.tree, unused.trees, Sides.get_both]; rfl⟩
  best := unused.best

/-- An edge-based query without pins between a node and itself starts with an answer of no
weight. -/
theorem Search.IsUnused.beats_zero (unused : search.IsUnused)
    (edgeBased : planner.settings.stateKind = .edgeBased) (unpinned : search.isPinned = false)
    (node : NodeId) (sourceWeight targetWeight : Exact) (now : Nat) :
    (planner.seed node sourceWeight node targetWeight now search).Beats 0 := by
  have noSteps : planner.rootSteps node node search = [] := by
    simp [Planner.rootSteps, Planner.isEdgeBased, StateKind.isEdgeBased, edgeBased, unpinned]
  have best := unused.blank.planted_best planner node sourceWeight node targetWeight now
  rw [if_pos rfl, edgeBased, unpinned] at best
  rw [Planner.seed_eq_follow, noSteps]
  exact ⟨0, le_rfl, Search.bestWeight_of_best best⟩

section Exhausted

variable {query : Query} (measures : planner.Measures query)
  (named : planner.settings.stateKind = .nodeBased →
    ∀ node, ∀ arc ∈ planner.network.arcs node, arc.edge ≠ noEdge)
  (started : Started planner query search) (tracks : planner.settings.tracksMeeting = true)
  (weights : ∀ side, 0 ≤ query.weights.get side) (finished : search.finished = true)

include measures named started tracks weights finished

/-- The best meeting of an exhausted search weighs the least cost of the query if that is nothing,
whatever the roots weigh. -/
theorem Started.weighs_nothing (beats : search.Beats 0) :
    Walk.IsLeastCost planner.network planner.pricing query.filter query.pins query.ends.forward
      query.ends.backward search.bestWeight := by
  obtain ⟨least, isLeast, isSum | ⟨rfl, meeting, best, immediate⟩⟩ :=
    started.weighs measures named tracks weights finished
  · -- Neither the walk nor the roots weigh anything, since their sum does not.
    obtain ⟨value, atMost, isBest⟩ := beats
    obtain ⟨cost, sum, rfl, isRoots, total⟩ := Exact.add_eq_finite (isSum.symm.trans isBest)
    obtain ⟨walk, admissible, isCost⟩ := isLeast.2 nofun
    have positive : 0 ≤ cost := (measures.isPrice admissible).nonneg isCost
    have roots : 0 ≤ sum := by
      rw [← Exact.finite.inj isRoots]
      exact add_nonneg (weights .forward) (weights .backward)
    have same : value = cost := by linarith
    rwa [isBest, same]
  · rwa [Search.bestWeight_of_best best, immediate.weight]

/-- The best meeting of an exhausted search weighs the least cost of the query and what its roots
weigh, if there was something to look for. -/
theorem Started.weighs_away (away : ¬ (planner.isEdgeBased = true ∧
      query.ends.forward = query.ends.backward ∧ ∀ side, query.pins.get side = none)) :
    ∃ least, Walk.IsLeastCost planner.network planner.pricing query.filter query.pins
        query.ends.forward query.ends.backward least ∧
      search.bestWeight = least + .finite (query.weights.forward + query.weights.backward) := by
  obtain ⟨least, isLeast, isSum | ⟨_, meeting, _, immediate⟩⟩ :=
    started.weighs measures named tracks weights finished
  · exact ⟨least, isLeast, isSum⟩
  · exact absurd ⟨immediate.edgeBased, immediate.sameEnds, immediate.unpinned⟩ away

end Exhausted

/-- A query that is let through is answered with the least cost, shifted by the weights at its
roots. -/
theorem Planner.Serves.answerWeighted (serves : planner.Serves list)
    (few : planner.settings.stateKind = .nodeBased → list.edges.size ≤ noEdge)
    (tracks : planner.settings.tracksMeeting = true)
    (noVisits : planner.settings.maxVisited = none) (noTime : planner.settings.timeoutMs = none)
    (unused : search.IsUnused)
    (unoriented : ArcFilter.Unoriented list.pack.network search.filter) {source target : NodeId}
    (accepted : planner.check search source target = .ok ()) {weights : Sides Rat}
    (nonneg : ∀ side, 0 ≤ weights.get side) (clock : Clock) :
    ∃ least found,
      Walk.IsLeastCost planner.network planner.pricing search.filter search.pins source target
        least ∧
      (planner.routeWeighted source (.finite weights.forward) target (.finite weights.backward)
        clock search).1 = .ok found ∧
      (found.isSome = true ↔ Weight.isFinite least = true) ∧
      ∀ route, found = some route →
        route.weight = least + .finite (planner.rootShift search source target weights) := by
  have measures : planner.Measures ⟨⟨source, target⟩, weights, search.pins, search.filter⟩ :=
    serves.measures (serves.network ▸ unoriented)
  have lawful := measures.toLawful
  have started := unused.startWeighted lawful nonneg (planner.start_of_check accepted (clock 0))
  obtain ⟨run, extends_⟩ := started.run lawful fun reading => clock (reading + 1)
  have finished := started.run_finished lawful noVisits noTime fun reading => clock (reading + 1)
  obtain ⟨found, isFound, isSome, weighs⟩ := run.result_finished measures finished
  have answered : (planner.routeWeighted source (.finite weights.forward) target
      (.finite weights.backward) clock search).1 = .ok found := by
    rw [Planner.routeWeighted, planner.start_of_check accepted]
    exact isFound
  by_cases home : planner.isEdgeBased = true ∧ source = target ∧ search.isPinned = false
  · obtain ⟨edgeBased, rfl, unpinned⟩ := home
    have beats := unused.beats_zero (planner.isEdgeBased_eq_true.mp edgeBased) unpinned source
      (.finite weights.forward) (.finite weights.backward) (clock 0)
    have isLeast := run.weighs_nothing measures (serves.named few) tracks nonneg finished
      (extends_.improves.beats beats)
    have noShift : planner.rootShift search source source weights = 0 :=
      if_pos ⟨edgeBased, rfl, unpinned⟩
    refine ⟨_, found, isLeast, answered, isSome, fun route isRoute => ?_⟩
    rw [noShift, Exact.add_zero]
    exact weighs route isRoute
  · have shift : planner.rootShift search source target weights =
        weights.forward + weights.backward := if_neg home
    have away : ¬ (planner.isEdgeBased = true ∧ source = target ∧
        ∀ side, search.pins.get side = none) :=
      fun ⟨edgeBased, same, unpinned⟩ =>
        home ⟨edgeBased, same, Search.isPinned_eq_false.mpr unpinned⟩
    obtain ⟨least, isLeast, isSum⟩ :=
      run.weighs_away measures (serves.named few) tracks nonneg finished away
    rw [isSum, Exact.isFinite_add] at isSome
    refine ⟨least, found, isLeast, answered, isSome, fun route isRoute => ?_⟩
    rw [shift, weighs route isRoute, isSum]

/-- Weights at its roots do not decide whether a query that is let through is answered with a
route. The route weighs as much more as both of them together, except that in an edge-based query
without pins between a node and itself it weighs the same. -/
theorem rootWeights_shift (serves : planner.Serves list)
    (few : planner.settings.stateKind = .nodeBased → list.edges.size ≤ noEdge)
    (tracks : planner.settings.tracksMeeting = true)
    (noVisits : planner.settings.maxVisited = none) (noTime : planner.settings.timeoutMs = none)
    (unused : search.IsUnused)
    (unoriented : ArcFilter.Unoriented list.pack.network search.filter) {source target : NodeId}
    (accepted : planner.check search source target = .ok ()) {weights : Sides Rat}
    (nonneg : ∀ side, 0 ≤ weights.get side) (clock : Clock) :
    ∃ plain shifted,
      (planner.routeWeighted source (.finite 0) target (.finite 0) clock search).1 = .ok plain ∧
      (planner.routeWeighted source (.finite weights.forward) target (.finite weights.backward)
        clock search).1 = .ok shifted ∧
      (shifted.isSome = true ↔ plain.isSome = true) ∧
      ∀ first second, plain = some first → shifted = some second →
        second.weight =
          first.weight + .finite (planner.rootShift search source target weights) := by
  have nothing (side : Direction) : 0 ≤ (Sides.both (0 : Rat)).get side := by
    rw [Sides.get_both]
  have noShift : planner.rootShift search source target (.both 0) = 0 := by
    unfold Planner.rootShift
    split
    · rfl
    · exact add_zero 0
  obtain ⟨least, plain, isLeast, isPlain, some, weighs⟩ :=
    serves.answerWeighted few tracks noVisits noTime unused unoriented accepted nothing clock
  obtain ⟨other, shifted, isOther, isShifted, someOther, weighsOther⟩ :=
    serves.answerWeighted few tracks noVisits noTime unused unoriented accepted nonneg clock
  obtain rfl := isLeast.unique isOther
  refine ⟨plain, shifted, isPlain, isShifted, someOther.trans some.symm,
    fun first second isFirst isSecond => ?_⟩
  rw [weighsOther second isSecond, weighs first isFirst, noShift, Exact.add_zero]

theorem rootWeights_shift_streets : ∃ plain shifted,
    (Planner.overStreets.routeWeighted 0 (.finite 0) 2 (.finite 0) (fun _ => 0) (.fresh ())).1 =
        .ok plain ∧
      (Planner.overStreets.routeWeighted 0 (.finite 10) 2 (.finite 20) (fun _ => 0)
        (.fresh ())).1 = .ok shifted ∧
      (shifted.isSome = true ↔ plain.isSome = true) ∧
      ∀ first second, plain = some first → shifted = some second →
        second.weight = first.weight +
          .finite (Planner.overStreets.rootShift (.fresh ()) 0 2 ⟨10, 20⟩) := by
  have accepted : Planner.overStreets.check (.fresh () : Search Exact Unit Unit) 0 2 = .ok () := rfl
  have nonneg (side : Direction) : 0 ≤ (⟨10, 20⟩ : Sides Rat).get side := by
    cases side <;> decide
  exact rootWeights_shift Planner.overStreets_serves nofun rfl rfl rfl
    (Search.fresh_isUnused () none) (fun _ _ _ => rfl) accepted nonneg fun _ => 0

/-- From a node to itself an edge-based query forgets the weights at its roots. -/
theorem rootWeights_forgotten_streets :
    (Planner.overStreets.routeWeighted 1 (.finite 0) 1 (.finite 0) (fun _ => 0) (.fresh ())).1 =
        .ok (some ⟨.finite 0, .finite 0, [1], []⟩) ∧
      (Planner.overStreets.routeWeighted 1 (.finite 10) 1 (.finite 20) (fun _ => 0)
        (.fresh ())).1 = .ok (some ⟨.finite 0, .finite 0, [1], []⟩) := by
  constructor
  · cbv
  · cbv

end RouteSearch
