/-
This file splits the price of an arc into a price of travel and a price of the turn before it,
and says when both directions of a search price a way alike.
-/

import RouteSearch.Pricing
import RouteSearch.Proofs.ExactWeight
import RouteSearch.Proofs.Network
import Mathlib.Algebra.Order.Field.Basic
import Mathlib.Algebra.Field.Rat
import Mathlib.Tactic.Positivity

namespace RouteSearch

open Exact (IsPrice)

/-- Travel has a price that is not negative, or is forbidden. -/
def Pricing.NonNegative (pricing : Pricing Exact) (network : Network Exact) : Prop :=
  ∀ {node arc direction}, arc ∈ network.arcs node → arc.isOpen direction = true →
    ∀ neighbour, (pricing.cost arc direction neighbour).IsPrice

/-- What two searches towards each other rely on: prices are not negative, an arc costs the same
from both ends, a turn costs the same with either of its arcs, and it never lowers a price. -/
structure Pricing.Fair (pricing : Pricing Exact) (network : Network Exact) : Prop where
  price : ∀ {node arc direction}, arc ∈ network.arcs node → arc.isOpen direction = true →
    ∀ neighbour, (pricing.cost arc direction neighbour).IsPrice
  travel : ∀ {node arc}, arc ∈ network.arcs node → arc.isOpen .forward = true →
    pricing.cost arc.flip .backward noEdge = pricing.cost arc .forward noEdge
  turn : ∀ {node arc next}, arc ∈ network.arcs node → next ∈ network.arcs arc.far →
    arc.isOpen .forward = true → next.isOpen .forward = true →
      pricing.cost next .forward arc.edge + pricing.cost arc .forward noEdge =
        pricing.cost arc.flip .backward next.edge + pricing.cost next .forward noEdge
  least : ∀ {node arc direction neighbour value}, arc ∈ network.arcs node →
    arc.isOpen direction = true → pricing.cost arc direction neighbour = .finite value →
      ∃ least, pricing.cost arc direction noEdge = .finite least ∧ least ≤ value

/-- What the sum at a meeting relies on: prices are numbers or infinite, an arc alone costs the
same from both ends, and it costs a fraction if it does next to any edge. Prices may be negative. -/
structure Pricing.Level (pricing : Pricing Exact) (network : Network Exact) : Prop where
  isNumber : ∀ {node arc direction}, arc ∈ network.arcs node → arc.isOpen direction = true →
    ∀ neighbour, pricing.cost arc direction neighbour ≠ .undefined
  travel : ∀ {node arc}, arc ∈ network.arcs node → arc.isOpen .forward = true →
    pricing.cost arc.flip .backward noEdge = pricing.cost arc .forward noEdge
  alone : ∀ {node arc direction neighbour value}, arc ∈ network.arcs node →
    arc.isOpen direction = true → pricing.cost arc direction neighbour = .finite value →
      ∃ alone, pricing.cost arc direction noEdge = .finite alone

theorem Pricing.Fair.level {pricing : Pricing Exact} {network : Network Exact}
    (fair : pricing.Fair network) : pricing.Level network where
  isNumber member isOpen neighbour := (fair.price member isOpen neighbour).isNumber
  travel := fair.travel
  alone member isOpen isCost := (fair.least member isOpen isCost).imp fun _ => And.left

/-- A pricing that does not look at the edge before or after an arc. -/
def Pricing.TurnFree (pricing : Pricing Exact) : Prop :=
  ∀ arc direction neighbour,
    pricing.cost arc direction neighbour = pricing.cost arc direction noEdge

/-- A pricing without turns, whose prices are not negative and the same from both ends. -/
structure Pricing.Flat (pricing : Pricing Exact) (network : Network Exact) : Prop where
  turnFree : pricing.TurnFree
  price : ∀ {node arc direction}, arc ∈ network.arcs node → arc.isOpen direction = true →
    (pricing.cost arc direction noEdge).IsPrice
  travel : ∀ {node arc}, arc ∈ network.arcs node → arc.isOpen .forward = true →
    pricing.cost arc.flip .backward noEdge = pricing.cost arc .forward noEdge

theorem Pricing.Flat.fair {pricing : Pricing Exact} {network : Network Exact}
    (flat : pricing.Flat network) : pricing.Fair network where
  price member isOpen neighbour := by
    rw [flat.turnFree]
    exact flat.price member isOpen
  travel := flat.travel
  turn {node arc next} member _ isOpen _ := by
    rw [flat.turnFree next .forward arc.edge, flat.turnFree arc.flip .backward next.edge,
      flat.travel member isOpen, Exact.add_comm]
  least {node arc direction neighbour value} _ _ isCost :=
    ⟨value, (flat.turnFree arc direction neighbour).symm.trans isCost, le_rfl⟩

namespace TurnTable

theorem penalty_isPrice {rules : List (TurnRule Exact)}
    (prices : ∀ turn cost, TurnRule.penalty turn cost ∈ rules → cost.IsPrice) (turn : Turn) :
    ((ofRules rules).penalties.getD turn (.finite 0)).IsPrice := by
  have step (table : TurnTable Exact)
      (before : (table.penalties.getD turn (.finite 0)).IsPrice) :
      ((rules.foldl apply table).penalties.getD turn (.finite 0)).IsPrice := by
    induction rules generalizing table with
    | nil => exact before
    | cons rule rest ih =>
        refine ih (fun turn cost member => prices turn cost (List.mem_cons_of_mem _ member)) _ ?_
        cases rule with
        | ban other => exact before
        | only other =>
            unfold apply allow
            dsimp only
            split <;> exact before
        | penalty other cost =>
            simp only [apply, TurnRule.turn, Std.HashMap.getD_insert]
            split
            · exact prices other cost List.mem_cons_self
            · exact before
  apply step empty
  simp [empty, IsPrice]

theorem cost_isPrice {rules : List (TurnRule Exact)}
    (prices : ∀ turn cost, TurnRule.penalty turn cost ∈ rules → cost.IsPrice) (turn : Turn) :
    ((ofRules rules).cost turn).IsPrice := by
  have zeroPrice : IsPrice (.finite 0) := le_refl (0 : Rat)
  unfold cost
  simp only [Exact.zero_eq, Exact.infinity_eq]
  split_ifs
  · exact zeroPrice
  · exact zeroPrice
  · trivial
  · trivial
  · exact penalty_isPrice prices turn

end TurnTable

namespace CostModel

/-- The cost model gives numbers that can be added up: no edge is without end and passed without
limit of speed at once, and penalties and u-turn costs are not negative. -/
def NonNegative (network : Network Exact) : CostModel Exact → Prop
  | .shortest => True
  | .fastest maxSpeed => ∀ node, ∀ arc ∈ network.arcs node, ∀ direction,
      arc.isOpen direction = true → Pricing.travelTime maxSpeed arc direction ≠ .undefined
  | .turns inner rules uTurnCost => inner.NonNegative network ∧
      (∀ turn cost, TurnRule.penalty turn cost ∈ rules → cost.IsPrice) ∧ uTurnCost.IsPrice

/-- Turns have prices, which may be infinite. Nothing is asked of the speeds. -/
def TurnsNonNegative : CostModel Exact → Prop
  | .shortest => True
  | .fastest _ => True
  | .turns inner rules uTurnCost => inner.TurnsNonNegative ∧
      (∀ turn cost, TurnRule.penalty turn cost ∈ rules → cost.IsPrice) ∧ uTurnCost.IsPrice

/-- The price of an arc without any turn. -/
def travel : CostModel Exact → Arc Exact → Direction → Exact
  | .shortest, arc, _ => arc.length
  | .fastest maxSpeed, arc, direction => Pricing.travelTime maxSpeed arc direction
  | .turns inner _ _, arc, direction => inner.travel arc direction

/-- The price of a turn, which is nothing next to the absence of an edge. -/
def turnPrice : CostModel Exact → Turn → Exact
  | .shortest, _ => .finite 0
  | .fastest _, _ => .finite 0
  | .turns inner rules uTurnCost, turn => inner.turnPrice turn +
      if turn.source = noEdge ∨ turn.target = noEdge then .finite 0
      else Pricing.turnCost (.ofRules rules) uTurnCost turn

theorem turnPrice_noEdge (model : CostModel Exact) {turn : Turn}
    (missing : turn.source = noEdge ∨ turn.target = noEdge) :
    model.turnPrice turn = .finite 0 := by
  induction model with
  | shortest => rfl
  | fastest maxSpeed => rfl
  | turns inner rules uTurnCost ih =>
      rw [turnPrice, ih, if_pos missing, Exact.zero_add]

/-- A turn from or to nowhere is free, unless it is a u-turn. -/
theorem turnCost_noEdge {table : TurnTable Exact} {uTurnCost : Exact} {turn : Turn}
    (missing : turn.source = noEdge ∨ turn.target = noEdge)
    (differs : turn.source ≠ turn.target) :
    Pricing.turnCost table uTurnCost turn = .finite 0 := by
  rw [Pricing.turnCost, if_neg differs, TurnTable.cost, if_pos (by simpa using missing)]
  rfl

@[simp] theorem turnPrice_turnAt_noEdge (model : CostModel Exact) (arc : Arc Exact)
    (direction : Direction) :
    model.turnPrice (Pricing.turnAt arc direction noEdge) = .finite 0 := by
  cases direction
  · exact model.turnPrice_noEdge (.inl rfl)
  · exact model.turnPrice_noEdge (.inr rfl)

variable {network : Network Exact} {model : CostModel Exact}

theorem turnCost_isPrice {rules : List (TurnRule Exact)} {uTurnCost : Exact}
    (prices : ∀ turn cost, TurnRule.penalty turn cost ∈ rules → cost.IsPrice)
    (uTurn : uTurnCost.IsPrice) (turn : Turn) :
    (Pricing.turnCost (.ofRules rules) uTurnCost turn).IsPrice := by
  unfold Pricing.turnCost
  split
  · exact uTurn
  · exact TurnTable.cost_isPrice prices turn

theorem NonNegative.turns (proper : model.NonNegative network) : model.TurnsNonNegative := by
  induction model with
  | shortest => trivial
  | fastest maxSpeed => trivial
  | turns inner rules uTurnCost ih => exact ⟨ih proper.1, proper.2⟩

theorem turnPrice_isPrice (turns : model.TurnsNonNegative) (turn : Turn) :
    (model.turnPrice turn).IsPrice := by
  have zeroPrice : IsPrice (.finite 0) := le_refl (0 : Rat)
  induction model with
  | shortest => exact zeroPrice
  | fastest maxSpeed => exact zeroPrice
  | turns inner rules uTurnCost ih =>
      apply (ih turns.1).add
      split
      · exact zeroPrice
      · exact turnCost_isPrice turns.2.1 turns.2.2 turn

/-- A travel time that is a number is a price. -/
theorem travelTime_isPrice {maxSpeed : Exact} {arc : Arc Exact} {direction : Direction}
    (length : arc.length.IsPrice)
    (isNumber : Pricing.travelTime maxSpeed arc direction ≠ .undefined) :
    (Pricing.travelTime maxSpeed arc direction).IsPrice := by
  unfold Pricing.travelTime at isNumber ⊢
  dsimp only at isNumber ⊢
  generalize Weight.smaller (arc.speed direction) maxSpeed = speed at isNumber ⊢
  generalize arc.length = extent at length isNumber ⊢
  by_cases standing : Weight.atMost speed Weight.zero = true
  · rw [if_pos standing]
    trivial
  · rw [if_neg standing] at isNumber ⊢
    have unit : (0 : Rat) < 36 / 10 ^ 1 := by positivity
    cases speed with
    | finite value =>
        have positive : 0 < value := by simpa using standing
        have pace : Exact.finite value / Pricing.metrePerSecond =
            Exact.finite (value / (36 / 10 ^ 1)) := if_neg unit.ne'
        have moving : 0 < value / (36 / 10 ^ 1) := div_pos positive unit
        rw [pace]
        cases extent with
        | finite metres =>
            have time : Exact.finite metres / Exact.finite (value / (36 / 10 ^ 1)) =
                Exact.finite (metres / (value / (36 / 10 ^ 1))) := if_neg moving.ne'
            rw [time]
            exact div_nonneg length moving.le
        | infinity =>
            have time : Exact.infinity / Exact.finite (value / (36 / 10 ^ 1)) =
                Exact.infinity := if_neg moving.not_gt
            rw [time]
            trivial
        | negativeInfinity => exact length.elim
        | undefined => exact length.elim
    | infinity =>
        have pace : Exact.infinity / Pricing.metrePerSecond = Exact.infinity :=
          if_neg unit.not_gt
        rw [pace] at isNumber ⊢
        cases extent with
        | finite metres => exact le_refl (0 : Rat)
        | infinity => exact absurd rfl isNumber
        | negativeInfinity => exact length.elim
        | undefined => exact length.elim
    | negativeInfinity => exact absurd rfl standing
    | undefined => cases extent <;> exact absurd rfl isNumber

theorem travel_isPrice (proper : model.NonNegative network) {node : NodeId} {arc : Arc Exact}
    {direction : Direction} (member : arc ∈ network.arcs node) (length : arc.length.IsPrice)
    (isOpen : arc.isOpen direction = true) : (model.travel arc direction).IsPrice := by
  induction model with
  | shortest => exact length
  | fastest maxSpeed =>
      exact travelTime_isPrice length (proper node arc member direction isOpen)
  | turns inner rules uTurnCost ih => exact ih proper.1

theorem travel_flip (model : CostModel Exact) (arc : Arc Exact) :
    model.travel arc.flip .backward = model.travel arc .forward := by
  induction model with
  | shortest => rfl
  | fastest maxSpeed => rfl
  | turns inner rules uTurnCost ih => exact ih

/-- Travel over an edge may be forbidden, or may not even be a number, but it is no endless gain. -/
theorem travel_ne_negativeInfinity (model : CostModel Exact) {arc : Arc Exact}
    (length : arc.length.IsPrice) (direction : Direction) :
    model.travel arc direction ≠ .negativeInfinity := by
  induction model with
  | shortest =>
      intro endless
      rw [travel] at endless
      rw [endless] at length
      exact length.elim
  | fastest maxSpeed =>
      intro endless
      rw [travel] at endless
      have price := travelTime_isPrice length fun isUndefined => by
        cases endless.symm.trans isUndefined
      rw [endless] at price
      exact price.elim
  | turns inner rules uTurnCost ih => exact ih

/-- The price of an arc is a price of travel and a price of the turn at its near end. -/
theorem cost_eq (turns : model.TurnsNonNegative) {arc : Arc Exact}
    (length : arc.length.IsPrice) (direction : Direction) (neighbour : EdgeId) :
    model.pricing.cost arc direction neighbour =
      model.travel arc direction + model.turnPrice (Pricing.turnAt arc direction neighbour) := by
  induction model with
  | shortest => exact (Exact.add_zero _).symm
  | fastest maxSpeed => exact (Exact.add_zero _).symm
  | turns inner rules uTurnCost ih =>
      have before := ih turns.1
      have bounded : inner.pricing.cost arc direction neighbour ≠ .negativeInfinity := by
        rw [before]
        exact (turnPrice_isPrice turns.1 _).add_ne_negativeInfinity
          (inner.travel_ne_negativeInfinity length direction)
      rw [travel, turnPrice, ← Exact.add_assoc, ← before]
      change (Pricing.withTurns inner.pricing (.ofRules rules) uTurnCost).cost
        arc direction neighbour = _
      unfold Pricing.withTurns
      dsimp only
      generalize inner.pricing.cost arc direction neighbour = travel at bounded ⊢
      generalize atTurn : Pricing.turnAt arc direction neighbour = turn
      have neighbourIs : turn.source = neighbour ∨ turn.target = neighbour := by
        rw [← atTurn]
        cases direction
        · exact .inl rfl
        · exact .inr rfl
      by_cases missing : neighbour = noEdge
      · rw [missing] at neighbourIs ⊢
        simp [neighbourIs]
      · have priced : Pricing.turnCost (.ofRules rules) uTurnCost turn =
            if turn.source = noEdge ∨ turn.target = noEdge then .finite 0
            else Pricing.turnCost (.ofRules rules) uTurnCost turn := by
          split
          · rename_i absent
            refine turnCost_noEdge absent fun same => missing ?_
            rcases neighbourIs with rfl | rfl <;> rcases absent with gone | gone <;>
              simp_all
          · rfl
        rw [← priced]
        cases endless : Weight.isInfinite travel with
        | true =>
            have isInfinity : travel = .infinity := by
              cases travel with
              | infinity => rfl
              | finite value => cases endless
              | negativeInfinity => exact absurd rfl bounded
              | undefined => cases endless
            rw [isInfinity, (turnCost_isPrice turns.2.1 turns.2.2 turn).infinity_add]
            simp
        | false => simp [missing]

/-- Seen from its end, an arc has the price of the same travel and of the turn at its end. -/
theorem cost_flip_eq (turns : model.TurnsNonNegative) {arc : Arc Exact}
    (length : arc.length.IsPrice) (next : EdgeId) :
    model.pricing.cost arc.flip .backward next =
      model.travel arc .forward + model.turnPrice ⟨arc.edge, arc.far, next⟩ := by
  have seen : arc.flip.length.IsPrice := length
  rw [cost_eq turns seen, travel_flip]
  rfl

/-- Every cost model without negative prices is fair. -/
theorem fair (proper : model.NonNegative network) (lawful : network.Lawful)
    (lengths : ∀ node, ∀ arc ∈ network.arcs node, arc.length.IsPrice) :
    model.pricing.Fair network where
  price {node arc direction} member isOpen neighbour := by
    rw [cost_eq proper.turns (lengths node arc member)]
    exact (travel_isPrice proper member (lengths node arc member) isOpen).add
      (turnPrice_isPrice proper.turns _)
  travel {node arc} member _ := by
    rw [cost_flip_eq proper.turns (lengths _ _ member), cost_eq proper.turns (lengths _ _ member),
      turnPrice_noEdge _ (.inr rfl), turnPrice_turnAt_noEdge]
  turn {node arc next} member nextMember _ _ := by
    rw [cost_eq proper.turns (lengths _ _ nextMember), cost_eq proper.turns (lengths _ _ member),
      cost_flip_eq proper.turns (lengths _ _ member),
      cost_eq proper.turns (lengths _ _ nextMember), turnPrice_turnAt_noEdge,
      turnPrice_turnAt_noEdge, Pricing.turnAt, lawful.near_eq nextMember]
    ac_rfl
  least {node arc direction neighbour value} member isOpen priced := by
    rw [cost_eq proper.turns (lengths _ _ member)] at priced
    obtain ⟨travelled, turned, travelIs, turnIs, rfl⟩ := Exact.add_eq_finite priced
    refine ⟨travelled, ?_,
      le_add_of_nonneg_right ((turnPrice_isPrice proper.turns _).nonneg turnIs)⟩
    rw [cost_eq proper.turns (lengths _ _ member), travelIs, turnPrice_turnAt_noEdge,
      Exact.add_zero]

theorem shortest_turnFree : (shortest : CostModel Exact).pricing.TurnFree := fun _ _ _ => rfl

theorem fastest_turnFree (maxSpeed : Exact) : (fastest maxSpeed).pricing.TurnFree :=
  fun _ _ _ => rfl

/-- Without a model of turns around it, a price of travel is flat. -/
theorem flat (proper : model.NonNegative network) (lawful : network.Lawful)
    (lengths : ∀ node, ∀ arc ∈ network.arcs node, arc.length.IsPrice)
    (simple : model = .shortest ∨ ∃ maxSpeed, model = .fastest maxSpeed) :
    model.pricing.Flat network := by
  have fair := fair proper lawful lengths
  refine ⟨?_, fun member isOpen => fair.price member isOpen noEdge, fair.travel⟩
  rcases simple with rfl | ⟨maxSpeed, rfl⟩
  · exact shortest_turnFree
  · exact fastest_turnFree maxSpeed

end CostModel

/-- A stored edge has a length that can be added up. -/
theorem EdgeList.length_isPrice (list : EdgeList Exact) (node : NodeId) :
    ∀ arc ∈ list.pack.network.arcs node, arc.length.IsPrice := by
  intro arc member
  obtain ⟨edge, record, reversed, stored, rfl, _⟩ := EdgeList.mem_arcs_pack.mp member
  have hasLength := (list.fits record (Array.mem_of_getElem? stored)).hasLength
  change record.length.IsPrice
  unfold StoredEdge.hasLength at hasLength
  cases extent : record.length with
  | finite metres =>
      rw [extent] at hasLength
      simpa [Weight.isNaN, IsPrice] using hasLength
  | infinity => trivial
  | negativeInfinity =>
      rw [extent] at hasLength
      cases hasLength
  | undefined =>
      rw [extent] at hasLength
      cases hasLength

end RouteSearch
