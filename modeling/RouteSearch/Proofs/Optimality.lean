/-
This file proves that a finished search has found the least cost of its query.
-/

import RouteSearch.Proofs.Crossing
import RouteSearch.Proofs.MeetingWalk

namespace RouteSearch

variable {X S : Type} {planner : Planner Exact X S} {query : Query} {search : Search Exact X S}

/-- What lets the weight of a meeting be the price of a walk: the query starts with nothing. -/
structure Planner.Prices (planner : Planner Exact X S) (query : Query) : Prop
    extends planner.Measures query where
  weights : query.weights = .both 0

theorem Planner.Measures.isPrice (measures : planner.Measures query) {walk : Walk Exact}
    (admissible : Walk.Admissible planner.network query.filter query.pins query.ends.forward
      query.ends.backward walk) : (Walk.cost planner.pricing noEdge walk).IsPrice := by
  obtain ⟨_, leads, _⟩ := Trail.leads_of_admissible measures.network measures.plain
    measures.unoriented walk [] ((List.append_nil walk).symm ▸ admissible)
  have price := Trail.cost_isPrice measures.pricing leads
  rwa [← Trail.cost_reverse, List.reverse_reverse] at price

/-- The best meeting of an exhausted search weighs as much more than the least cost of the query
as its roots do, unless it was found immediately. -/
theorem Started.weighs (measures : planner.Measures query)
    (named : planner.settings.stateKind = .nodeBased →
      ∀ node, ∀ arc ∈ planner.network.arcs node, arc.edge ≠ noEdge)
    (started : Started planner query search) (tracks : planner.settings.tracksMeeting = true)
    (weights : ∀ side, 0 ≤ query.weights.get side) (finished : search.finished = true) :
    ∃ least, Walk.IsLeastCost planner.network planner.pricing query.filter query.pins
        query.ends.forward query.ends.backward least ∧
      (search.bestWeight = least + .finite (query.weights.forward + query.weights.backward) ∨
        least = .finite 0 ∧
          ∃ meeting, search.best = some meeting ∧ Immediate planner query meeting) := by
  have lawful := measures.toLawful
  have exhausted := started.exhausted lawful weights finished
  have beats {walk : Walk Exact} {cost : Rat}
      (admissible : Walk.Admissible planner.network query.filter query.pins query.ends.forward
        query.ends.backward walk) (isCost : Walk.cost planner.pricing noEdge walk = .finite cost) :
      search.Beats (cost + (query.weights.forward + query.weights.backward)) :=
    started.beats_walk lawful (fun kind => ⟨measures.turnFree kind, named kind⟩) measures.plain
      measures.unoriented tracks weights exhausted admissible isCost
  cases best : search.best with
  | none =>
      have endless : search.bestWeight = .infinity := by
        rw [Search.bestWeight, best]
        rfl
      refine ⟨.infinity, ⟨fun walk admissible => ?_, fun bounded => absurd rfl bounded⟩,
        .inl endless⟩
      rcases (measures.isPrice admissible).cases with isInfinite | ⟨cost, _, isCost⟩
      · rw [isInfinite]
        rfl
      · obtain ⟨_, _, isBest⟩ := beats admissible isCost
        rw [endless] at isBest
        cases isBest
  | some meeting =>
      obtain ⟨before, rest, carries⟩ := started.carries measures best
      obtain ⟨cost, isCost, isSum | ⟨immediate, rfl⟩⟩ := carries.weight
      · have bestWeight := (Search.bestWeight_of_best best).trans isSum
        refine ⟨.finite cost, ⟨fun walk admissible => ?_, fun _ =>
          ⟨_, carries.admissible, isCost⟩⟩, .inl bestWeight⟩
        refine (measures.isPrice admissible).atMost fun other _ isOther => ?_
        obtain ⟨least, atMost, isBest⟩ := beats admissible isOther
        obtain rfl := Exact.finite.inj (bestWeight.symm.trans isBest)
        exact le_of_add_le_add_right atMost
      · refine ⟨.finite 0, ⟨fun walk admissible => ?_, fun _ =>
          ⟨_, carries.admissible, isCost⟩⟩, .inr ⟨rfl, meeting, rfl, immediate⟩⟩
        exact (measures.isPrice admissible).atMost fun other nonneg _ => nonneg

/-- The best meeting of an exhausted search weighs the least cost of the query. -/
theorem Started.leastCost (prices : planner.Prices query)
    (named : planner.settings.stateKind = .nodeBased →
      ∀ node, ∀ arc ∈ planner.network.arcs node, arc.edge ≠ noEdge)
    (started : Started planner query search) (tracks : planner.settings.tracksMeeting = true)
    (finished : search.finished = true) :
    Walk.IsLeastCost planner.network planner.pricing query.filter query.pins query.ends.forward
      query.ends.backward search.bestWeight := by
  have noWeight (side : Direction) : 0 ≤ query.weights.get side := by
    rw [prices.weights, Sides.get_both]
  obtain ⟨least, isLeast, isSum | ⟨rfl, meeting, best, immediate⟩⟩ :=
    started.weighs prices.toMeasures named tracks noWeight finished
  · have noWeights : query.weights.forward + query.weights.backward = 0 := by
      rw [prices.weights]
      exact add_zero 0
    rw [noWeights, Exact.add_zero] at isSum
    rwa [isSum]
  · rwa [Search.bestWeight_of_best best, immediate.weight]

section IsLeastCost

variable {network : Network Exact} {pricing : Pricing Exact}
  {filter : Option (ArcFilter Exact)} {pins : Sides (Option EdgeId)} {source target : NodeId}

/-- The least cost of a query is finite if and only if some admissible walk has a finite cost. -/
theorem Walk.IsLeastCost.isFinite_iff {least : Exact}
    (isLeast : Walk.IsLeastCost network pricing filter pins source target least)
    (proper : least = .infinity ∨ ∃ value, least = .finite value) :
    Weight.isFinite least = true ↔ ∃ walk,
      Walk.Admissible network filter pins source target walk ∧
        Weight.isFinite (Walk.cost pricing noEdge walk) = true := by
  constructor
  · intro isFinite
    obtain ⟨walk, admissible, isCost⟩ := isLeast.2 (by
      rintro rfl
      cases isFinite)
    exact ⟨walk, admissible, isCost ▸ isFinite⟩
  · rintro ⟨walk, admissible, isFinite⟩
    have atMost := isLeast.1 walk admissible
    rcases proper with rfl | ⟨value, rfl⟩
    · rw [Exact.eq_infinity_of_atMost atMost] at isFinite
      cases isFinite
    · exact Exact.isFinite_finite value

/-- A query has one least cost only. -/
theorem Walk.IsLeastCost.unique {first second : Exact}
    (left : Walk.IsLeastCost network pricing filter pins source target first)
    (right : Walk.IsLeastCost network pricing filter pins source target second) :
    first = second := by
  have atMost {lower upper : Exact}
      (isLower : Walk.IsLeastCost network pricing filter pins source target lower)
      (isUpper : Walk.IsLeastCost network pricing filter pins source target upper)
      (bounded : upper ≠ .infinity) : Weight.atMost lower upper = true := by
    obtain ⟨walk, admissible, isCost⟩ := isUpper.2 bounded
    exact isCost ▸ isLower.1 walk admissible
  by_cases firstBounded : first = .infinity
  · by_cases secondBounded : second = .infinity
    · rw [firstBounded, secondBounded]
    · have endless := atMost left right secondBounded
      rw [firstBounded] at endless
      exact absurd (Exact.eq_infinity_of_atMost endless) secondBounded
  · by_cases secondBounded : second = .infinity
    · have endless := atMost right left firstBounded
      rw [secondBounded] at endless
      exact absurd (Exact.eq_infinity_of_atMost endless) firstBounded
    · exact Exact.atMost_antisymm (atMost left right secondBounded)
        (atMost right left firstBounded)

end IsLeastCost

end RouteSearch
