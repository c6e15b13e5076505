/-
This file proves that both directions of a search price a way alike, edge for edge and as a whole.
-/

import RouteSearch.Proofs.Answer

namespace RouteSearch

variable {network : Network Exact} {model : CostModel Exact}

/-- A walk costs from its start what it costs from its end, and the turn into its first arc
besides. -/
theorem Walk.cost_eq_costFromEnd (lawful : network.Lawful)
    (lengths : ∀ node, ∀ arc ∈ network.arcs node, arc.length.IsPrice)
    (turns : model.TurnsNonNegative) {source target : NodeId} {arc : Arc Exact} {rest : Walk Exact}
    (connects : Walk.Connects network source (arc :: rest) target) (previous : EdgeId) :
    Walk.cost model.pricing previous (arc :: rest) =
      model.turnPrice (Pricing.turnAt arc .forward previous) +
        Walk.costFromEnd model.pricing noEdge (arc :: rest) := by
  -- Along the rest of the walk, each turn moves from the arc after it to the arc before it.
  induction rest generalizing source arc previous with
  | nil =>
      have length := lengths _ _ connects.1
      have free : model.turnPrice ⟨arc.edge, arc.far, noEdge⟩ = .finite 0 :=
        model.turnPrice_noEdge (.inr rfl)
      rw [Walk.cost, Walk.cost, Walk.costFromEnd, CostModel.cost_eq turns length,
        CostModel.cost_flip_eq turns length, free, Exact.zero_eq]
      ac_rfl
  | cons next rest ih =>
      have length := lengths _ _ connects.1
      have sameTurn : Pricing.turnAt next .forward arc.edge = ⟨arc.edge, arc.far, next.edge⟩ := by
        rw [Pricing.turnAt, lawful.near_eq connects.2.1]
      rw [Walk.cost, ih connects.2, Walk.costFromEnd, CostModel.cost_eq turns length,
        CostModel.cost_flip_eq turns length, sameTurn]
      ac_rfl

/-- Both directions of a search price a way alike, whether or not it is open: an arc lets a forward
search pass if and only if its view from the other end lets a backward search pass, and the prices
that a forward search counts add up to those that a backward search counts. Turns are charged on
either side of them, and have prices that may be infinite. -/
theorem price_from_either_end (list : EdgeList Exact) (turns : model.TurnsNonNegative)
    {source target : NodeId} {walk : Walk Exact}
    (connects : Walk.Connects list.pack.network source walk target) :
    (∀ arc ∈ walk, arc.flip ∈ list.pack.network.arcs arc.far ∧
      ArcFilter.access .backward arc.flip = ArcFilter.access .forward arc) ∧
    Walk.cost model.pricing noEdge walk = Walk.costFromEnd model.pricing noEdge walk := by
  have lawful : list.pack.network.Lawful := list.lawful_pack
  constructor
  · intro arc member
    obtain ⟨node, listed⟩ := connects.listed member
    exact ⟨lawful.flip_mem listed, rfl⟩
  · cases walk with
    | nil => rfl
    | cons arc rest =>
        rw [Walk.cost_eq_costFromEnd lawful list.length_isPrice turns connects,
          model.turnPrice_turnAt_noEdge, Exact.zero_add]

/-- The walk over both streets turns once, which is charged on the second street from the start,
and on the first one from the end. -/
theorem price_from_either_end_streets :
    (∀ arc ∈ Walk.alongStreets, arc.flip ∈ EdgeList.streets.pack.network.arcs arc.far ∧
      ArcFilter.access .backward arc.flip = ArcFilter.access .forward arc) ∧
    Walk.cost CostModel.slowTurn.pricing noEdge .alongStreets =
      Walk.costFromEnd CostModel.slowTurn.pricing noEdge .alongStreets :=
  price_from_either_end .streets CostModel.slowTurn_nonNegative.turns
    Walk.alongStreets_admissible.connects

end RouteSearch
