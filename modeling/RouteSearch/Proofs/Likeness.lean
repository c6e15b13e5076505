/-
This file proves that searches which differ in nothing but their pins answer alike, as long as no
query is started under a pin that differs.
-/

import RouteSearch.Proofs.Aside
import RouteSearch.Proofs.Calls

namespace RouteSearch

variable {W X S : Type}

namespace Call

/-- Whether a call starts a query under the pins that the search has. -/
def isStart : Call W → Bool
  | .start .. => true
  | _ => false

/-- The directions whose pins two searches share after a call, if they shared those of `known`
before. -/
def share (call : Call W) (known : Sides Bool) : Sides Bool :=
  match call with
  | .pin direction _ => known.set direction true
  | .route .. => .both true
  | _ => known

/-- No query is started under a pin that is not `known` and that the calls have not set. -/
def OwnPins : Sides Bool → List (Call W) → Prop
  | _, [] => True
  | known, call :: calls =>
      (call.isStart = true → known = .both true) ∧ OwnPins (call.share known) calls

end Call

namespace Search

variable {search : Search W X S} {known : Sides Bool} {pins : Sides (Option EdgeId)}

/-- The search has these pins in the directions that are `known`. It may have any pins once it was
started, since they count no more. -/
def Shares (search : Search W X S) (known : Sides Bool) (pins : Sides (Option EdgeId)) : Prop :=
  search.seeded = true ∨
    ∀ direction, known.get direction = true → pins.get direction = search.pins.get direction

/-- A search that was not started yet has all pins in common if all are known. -/
theorem Shares.samePins (shares : search.Shares known pins)
    (own : search.seeded = true ∨ known = .both true) :
    search.seeded = true ∨ pins = search.pins := by
  rcases own with seeded | rfl
  · exact .inl seeded
  · refine shares.imp_right fun same => Sides.ext_get fun direction => ?_
    exact same direction (Sides.get_both true direction)

/-- A new pin is shared. -/
theorem Shares.withPin (shares : search.Shares known pins) (direction : Direction)
    (edge : Option EdgeId) :
    (search.withPin direction edge).Shares (known.set direction true)
      (pins.set direction edge) := by
  refine shares.imp_right fun same side isKnown => ?_
  change (pins.set direction edge).get side = (search.pins.set direction edge).get side
  rcases Direction.eq_or_opposite direction side with rfl | rfl
  · rw [Sides.get_set, Sides.get_set]
  · rw [Sides.get_opposite_set] at isKnown ⊢
    rw [Sides.get_opposite_set]
    exact same _ isKnown

end Search

variable [Weight W] {planner : Planner W X S} {search : Search W X S} {clock : Clock}
  {known : Sides Bool} {pins : Sides (Option EdgeId)}

namespace Planner

theorem advance_withPins (direction : Direction) :
    planner.advance direction (search.withPins pins) =
      ((planner.advance direction search).1,
        (planner.advance direction search).2.withPins pins) := by
  have startedAt := (planner.advanceUnder_touches direction none search).startedAt
  rw [search.withPins_eq_beside, advance_beside, Search.withPins_eq_beside, advance, startedAt]

theorem run_withPins :
    planner.run clock (search.withPins pins) = (planner.run clock search).withPins pins := by
  rw [search.withPins_eq_beside, run_beside rfl (.inr ⟨rfl, rfl⟩), Search.withPins_eq_beside,
    (planner.run_frame clock search).2.2]

section Query

variable (source target : NodeId) (sourceWeight targetWeight : W)

theorem start_withPins (now : Nat) (same : search.seeded = true ∨ pins = search.pins) :
    planner.start source sourceWeight target targetWeight now (search.withPins pins) =
      (planner.start source sourceWeight target targetWeight now search).map
        (·.withPins pins) := by
  rw [search.withPins_eq_beside, planner.start_beside search _ source target sourceWeight
    targetWeight now now same]
  cases accepted : planner.start source sourceWeight target targetWeight now search with
  | error fault => rfl
  | ok begun =>
      have besides : begun.beside ⟨pins, some now, .both false⟩ = begun.withPins pins := by
        rw [begun.withPins_eq_beside, (start_frame accepted).2]
      exact congrArg Except.ok besides

/-- A query that brings its pins along overwrites others. -/
theorem route_withPins (planner : Planner W X S) (search : Search W X S)
    (pins : Sides (Option EdgeId)) (clock : Clock) (sourceEdge targetEdge : Option EdgeId) :
    ∃ after, planner.route source sourceEdge target targetEdge clock (search.withPins pins) =
        ((planner.route source sourceEdge target targetEdge clock search).1,
          (planner.route source sourceEdge target targetEdge clock search).2.withPins after) ∧
      (planner.route source sourceEdge target targetEdge clock search).2.Shares (.both true)
        after := by
  cases seeded : search.seeded with
  | true =>
      have alsoSeeded : (search.withPins pins).seeded = true := seeded
      rw [route_again seeded, route_again alsoSeeded]
      exact ⟨pins, rfl, .inl seeded⟩
  | false =>
      have alsoUnseeded : (search.withPins pins).seeded = false := seeded
      rw [route_eq seeded, route_eq alsoUnseeded]
      exact ⟨_, rfl, .inr fun _ _ => rfl⟩

end Query

/-- A call is answered alike, and leaves searches that differ in their pins at most. -/
theorem perform_withPins (call : Call W) (shares : search.Shares known pins)
    (own : search.seeded = true ∨ (call.isStart = true → known = .both true)) :
    ∃ after, planner.perform clock call (search.withPins pins) =
        ((planner.perform clock call search).1,
          (planner.perform clock call search).2.withPins after) ∧
      (planner.perform clock call search).2.Shares (call.share known) after := by
  unfold perform
  cases call with
  | start source sourceWeight target targetWeight =>
      have same := shares.samePins (own.imp_right fun own => own rfl)
      dsimp only
      rw [start_withPins source target sourceWeight targetWeight (clock 0) same]
      cases accepted : planner.start source sourceWeight target targetWeight (clock 0) search with
      | error fault => exact ⟨pins, rfl, shares⟩
      | ok begun =>
          refine ⟨pins, rfl, .inl ?_⟩
          rw [(planner.start_eq_ok accepted).1]
          exact planner.seed_seeded _ _ _ _ _ _
  | run =>
      obtain ⟨samePins, seeded, _⟩ := planner.run_frame clock search
      refine ⟨pins, congrArg (Prod.mk Answer.done) run_withPins, ?_⟩
      rw [Search.Shares, samePins, seeded]
      exact shares
  | advance direction =>
      have touches := planner.advanceUnder_touches direction none search
      dsimp only
      rw [advance_withPins]
      refine ⟨pins, rfl, ?_⟩
      rw [Search.Shares, advance, touches.pins, touches.seeded]
      exact shares
  | result => exact ⟨pins, rfl, shares⟩
  | route source sourceEdge target targetEdge =>
      obtain ⟨after, same, kept⟩ :=
        route_withPins source target planner search pins clock sourceEdge targetEdge
      refine ⟨after, ?_, kept⟩
      dsimp only
      rw [same]
  | pin direction edge => exact ⟨pins.set direction edge, rfl, shares.withPin direction edge⟩
  | restrict filter => exact ⟨pins, rfl, shares⟩

/-- A started search stays started. -/
theorem seeded_invariant (planner : Planner W X S) :
    planner.Invariant fun search => search.seeded = true where
  congr _ _ _ _ seeded := seeded.trans
  advance {search} direction seeded :=
    (planner.advanceUnder_touches direction none search).seeded.trans seeded
  seed source sourceWeight target targetWeight now _ _ :=
    planner.seed_seeded source sourceWeight target targetWeight now _

/-- Calls are answered alike as long as each of them starts its query under pins that are
shared. -/
theorem performAll_withPins (calls : List (Call W)) (shares : search.Shares known pins)
    (own : search.seeded = true ∨ Call.OwnPins known calls) :
    ∃ after, planner.performAll clock calls (search.withPins pins) =
      ((planner.performAll clock calls search).1,
        (planner.performAll clock calls search).2.withPins after) := by
  -- The calls before have shared the pins that they set, so `known` grows along the induction.
  induction calls generalizing known search pins with
  | nil => exact ⟨pins, rfl⟩
  | cons call calls ih =>
      obtain ⟨middle, same, kept⟩ := perform_withPins call shares (own.imp_right And.left)
      have ownLater := own.imp (planner.seeded_invariant.perform clock call) And.right
      obtain ⟨after, sameLater⟩ := ih kept ownLater
      refine ⟨after, ?_⟩
      unfold performAll
      dsimp only
      rw [same, sameLater]

end Planner

end RouteSearch
