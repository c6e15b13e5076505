/-
This file proves that a table of turn rules prices every turn as its list of rules means it.
-/

import RouteSearch.TurnTable.Meaning
import RouteSearch.Weight.Exact
import Mathlib.Data.Finset.Card
import Mathlib.Data.List.Induction

namespace RouteSearch

namespace TurnTable

open TurnRule

variable {W : Type} {table : TurnTable W} {rules : List (TurnRule W)} {turn other : Turn}

@[simp] theorem bans_allow : (table.allow other).bans = table.bans := by
  unfold allow
  dsimp only
  split <;> rfl

@[simp] theorem junctions_allow : (table.allow other).junctions = table.junctions := by
  unfold allow
  dsimp only
  split <;> rfl

@[simp] theorem penalties_allow : (table.allow other).penalties = table.penalties := by
  unfold allow
  dsimp only
  split <;> rfl

/-- A rule of any kind makes its node a junction. -/
theorem junctions_apply (rule : TurnRule W) :
    (table.apply rule).junctions = table.junctions.insert rule.turn.via := by
  cases rule with
  | ban _ => rfl
  | only _ => exact junctions_allow
  | penalty _ _ => rfl

/-- A continuation is listed once it is allowed. -/
theorem listed_allow :
    ((table.allow other).continuations.getD (turn.source, turn.via) []).contains turn.target =
      ((table.continuations.getD (turn.source, turn.via) []).contains turn.target ||
        decide (other = turn)) := by
  obtain ⟨source, via, target⟩ := turn
  obtain ⟨otherSource, otherVia, otherTarget⟩ := other
  unfold allow
  dsimp only
  split
  · rename_i known
    by_cases same : (⟨otherSource, otherVia, otherTarget⟩ : Turn) = ⟨source, via, target⟩
    · cases same
      rw [known]
      rfl
    · simp [same]
  · by_cases here : (otherSource, otherVia) = (source, via)
    · cases here
      simp [eq_comm]
    · have differs : (⟨otherSource, otherVia, otherTarget⟩ : Turn) ≠ ⟨source, via, target⟩ := by
        rintro ⟨⟩
        exact here rfl
      rw [Std.HashMap.getD_insert, if_neg (by simpa using here)]
      simp [differs]

/-- An edge has continuations at a node once one of them is allowed. -/
theorem continues_allow :
    (table.allow other).continuations.contains (turn.source, turn.via) =
      (table.continuations.contains (turn.source, turn.via) ||
        (other.source = turn.source && other.via = turn.via)) := by
  unfold allow
  dsimp only
  split
  · rename_i known
    by_cases here : other.source = turn.source ∧ other.via = turn.via
    · rw [here.1, here.2] at known
      cases listed : table.continuations.contains (turn.source, turn.via) with
      | true => rfl
      | false =>
          rw [Std.HashMap.getD_eq_fallback_of_contains_eq_false listed] at known
          cases known
    · rw [← Bool.decide_and, decide_eq_false here, Bool.or_false]
  · rw [Std.HashMap.contains_insert, Bool.or_comm]
    rfl

theorem ofRules_concat (rules : List (TurnRule W)) (rule : TurnRule W) :
    ofRules (rules ++ [rule]) = (ofRules rules).apply rule :=
  List.foldl_append

theorem hasRules_ofRules (rules : List (TurnRule W)) (node : NodeId) :
    (ofRules rules).hasRules node = rules.any (fun rule => rule.turn.via = node) := by
  induction rules using List.reverseRecOn with
  | nil => simp [ofRules, empty, hasRules]
  | append_singleton rules rule ih =>
      rw [hasRules] at ih ⊢
      rw [ofRules_concat, junctions_apply, Std.HashSet.contains_insert, ih, List.any_append,
        Bool.or_comm, List.any_cons, List.any_nil, Bool.or_false]
      rfl

theorem bans_ofRules (rules : List (TurnRule W)) (turn : Turn) :
    (ofRules rules).bans.contains turn = rules.any (isBanOf turn) := by
  induction rules using List.reverseRecOn with
  | nil => simp [ofRules, empty]
  | append_singleton rules rule ih =>
      rw [ofRules_concat, List.any_append, ← ih]
      cases rule with
      | ban other =>
          rw [List.any_cons, List.any_nil, Bool.or_false, Bool.or_comm]
          exact Std.HashSet.contains_insert
      | only other => simp [apply, isBanOf]
      | penalty other cost => simp [apply, isBanOf]

theorem listed_ofRules (rules : List (TurnRule W)) (turn : Turn) :
    ((ofRules rules).continuations.getD (turn.source, turn.via) []).contains turn.target =
      rules.any (isOnlyOf turn) := by
  induction rules using List.reverseRecOn with
  | nil => simp [ofRules, empty]
  | append_singleton rules rule ih =>
      rw [ofRules_concat, List.any_append, ← ih]
      cases rule with
      | ban other => simp [apply, isOnlyOf]
      | only other => simp only [apply, listed_allow, isOnlyOf, List.any_cons, List.any_nil,
          Bool.or_false]
      | penalty other cost => simp [apply, isOnlyOf]

theorem continues_ofRules (rules : List (TurnRule W)) (turn : Turn) :
    (ofRules rules).continuations.contains (turn.source, turn.via) =
      rules.any (isOnlyFrom turn) := by
  induction rules using List.reverseRecOn with
  | nil => simp [ofRules, empty]
  | append_singleton rules rule ih =>
      rw [ofRules_concat, List.any_append, ← ih]
      cases rule with
      | ban other => simp [apply, isOnlyFrom]
      | only other => simp only [apply, continues_allow, isOnlyFrom, List.any_cons, List.any_nil,
          Bool.or_false]
      | penalty other cost => simp [apply, isOnlyFrom]

/-- The penalty of a turn is the one that was given last. -/
theorem penalties_ofRules (rules : List (TurnRule W)) (turn : Turn) :
    (ofRules rules).penalties[turn]? = (rules.filterMap (penaltyOf? turn)).getLast? := by
  induction rules using List.reverseRecOn with
  | nil => simp [ofRules, empty]
  | append_singleton rules rule ih =>
      rw [ofRules_concat, List.filterMap_append]
      cases rule with
      | ban other => simpa [apply, penaltyOf?] using ih
      | only other => simpa [apply, penaltyOf?] using ih
      | penalty other cost =>
          simp only [apply, Std.HashMap.getElem?_insert, beq_iff_eq]
          by_cases same : other = turn
          · simp [penaltyOf?, same]
          · simpa [penaltyOf?, same] using ih

/-- There are as many junctions as nodes with a rule. -/
theorem junctionCount_ofRules (rules : List (TurnRule W)) :
    (ofRules rules).junctionCount = (rules.map (·.turn.via)).toFinset.card := by
  induction rules using List.reverseRecOn with
  | nil => simp [ofRules, empty, junctionCount]
  | append_singleton rules rule ih =>
      have known : rule.turn.via ∈ (ofRules rules).junctions ↔
          rule.turn.via ∈ (rules.map (·.turn.via)).toFinset := by
        have has := hasRules_ofRules rules rule.turn.via
        rw [hasRules, Bool.eq_iff_iff, Std.HashSet.contains_iff_mem, List.any_eq_true] at has
        simpa using has
      rw [junctionCount] at ih ⊢
      rw [ofRules_concat, junctions_apply, Std.HashSet.size_insert, List.map_append,
        List.toFinset_append, Finset.union_comm]
      change _ = (insert rule.turn.via (rules.map (·.turn.via)).toFinset).card
      rw [Finset.card_insert_eq_ite, ih]
      simp only [known]

/-- A table finds a turn forbidden if its rules forbid it. -/
theorem forbids_ofRules (rules : List (TurnRule W)) (turn : Turn) :
    ((ofRules rules).bans.contains turn ||
      ((ofRules rules).continuations[(turn.source, turn.via)]?).any (!·.contains turn.target)) =
      forbids rules turn := by
  rw [forbids, bans_ofRules, ← continues_ofRules, ← listed_ofRules,
    Std.HashMap.contains_eq_isSome_getElem?, Std.HashMap.getD_eq_getD_getElem?]
  cases (ofRules rules).continuations[(turn.source, turn.via)]? with
  | none => rfl
  | some allowed => rfl

/-- A turn that the rules forbid is at a node with rules. -/
theorem hasRules_of_forbids (forbidden : forbids rules turn = true) :
    (ofRules rules).hasRules turn.via = true := by
  rw [hasRules_ofRules, List.any_eq_true]
  rw [forbids, Bool.or_eq_true, Bool.and_eq_true] at forbidden
  rcases forbidden with banned | ⟨named, _⟩
  · obtain ⟨rule, member, isBan⟩ := List.any_eq_true.mp banned
    refine ⟨rule, member, ?_⟩
    cases rule <;> simp_all [isBanOf, TurnRule.turn]
  · obtain ⟨rule, member, isOnly⟩ := List.any_eq_true.mp named
    refine ⟨rule, member, ?_⟩
    cases rule <;> simp_all [isOnlyFrom, TurnRule.turn]

/-- A turn with a penalty is at a node with rules. -/
theorem hasRules_of_penalty {cost : W} (given : cost ∈ rules.filterMap (penaltyOf? turn)) :
    (ofRules rules).hasRules turn.via = true := by
  obtain ⟨rule, member, isPenalty⟩ := List.mem_filterMap.mp given
  rw [hasRules_ofRules, List.any_eq_true]
  refine ⟨rule, member, ?_⟩
  cases rule with
  | ban _ => cases isPenalty
  | only _ => cases isPenalty
  | penalty other price =>
      rw [penaltyOf?, Option.ite_none_right_eq_some] at isPenalty
      exact decide_eq_true (congrArg Turn.via isPenalty.1)

variable [Weight W]

/-- The cost of a turn by the rules of a table, without a look at the junctions. -/
def ruledCost (table : TurnTable W) (turn : Turn) : W :=
  if turn.source = noEdge || turn.target = noEdge then Weight.zero
  else if table.bans.contains turn then Weight.infinity
  else if (table.continuations[(turn.source, turn.via)]?).any (!·.contains turn.target) then
    Weight.infinity
  else table.penalties.getD turn Weight.zero

theorem ruledCost_ofRules (rules : List (TurnRule W)) (turn : Turn) :
    (ofRules rules).ruledCost turn = costOf rules turn := by
  rw [ruledCost, costOf, ← forbids_ofRules, Std.HashMap.getD_eq_getD_getElem?, penalties_ofRules]
  cases (ofRules rules).bans.contains turn with
  | true => rfl
  | false => rfl

/-- A turn away from all junctions is free. -/
theorem costOf_away (away : (ofRules rules).hasRules turn.via = false) :
    costOf rules turn = Weight.zero := by
  have allowed : forbids rules turn = false := by
    cases forbidden : forbids rules turn with
    | false => rfl
    | true => rw [← away, hasRules_of_forbids forbidden]
  have free : rules.filterMap (penaltyOf? turn) = [] := by
    rw [List.eq_nil_iff_forall_not_mem]
    intro cost given
    rw [hasRules_of_penalty given] at away
    cases away
  rw [costOf, allowed, free]
  split <;> rfl

/-- The look at the junctions saves time and changes no cost. -/
theorem cost_eq_ruledCost (rules : List (TurnRule W)) (turn : Turn) :
    (ofRules rules).cost turn = (ofRules rules).ruledCost turn := by
  cases here : (ofRules rules).hasRules turn.via with
  | true =>
      rw [cost, here]
      rfl
  | false =>
      rw [ruledCost_ofRules, costOf_away here, cost, here]
      split <;> rfl

theorem cost_ofRules (rules : List (TurnRule W)) (turn : Turn) :
    (ofRules rules).cost turn = costOf rules turn := by
  rw [cost_eq_ruledCost, ruledCost_ofRules]

/-- The table forbids what its rules forbid, at a node with an edge before and after it. -/
theorem cost_of_forbids (forbidden : forbids rules turn = true) (source : turn.source ≠ noEdge)
    (target : turn.target ≠ noEdge) : (ofRules rules).cost turn = Weight.infinity := by
  rw [cost_ofRules, costOf, forbidden]
  simp [source, target]

omit [Weight W] in
/-- What the rules forbid does not depend on their order. -/
theorem forbids_perm {others : List (TurnRule W)} (moved : others.Perm rules) (turn : Turn) :
    forbids others turn = forbids rules turn := by
  have same (chosen : TurnRule W → Bool) : others.any chosen = rules.any chosen := by
    rw [Bool.eq_iff_iff, List.any_eq_true, List.any_eq_true]
    simp only [moved.mem_iff]
  rw [forbids, forbids, same, same, same]

end TurnTable

open TurnRule

variable {W : Type}

def TurnRule.isPenalty : TurnRule W → Bool
  | .penalty .. => true
  | _ => false

theorem TurnRule.penaltyOf?_filter (rules : List (TurnRule W)) (turn : Turn) :
    (rules.filter isPenalty).filterMap (penaltyOf? turn) = rules.filterMap (penaltyOf? turn) := by
  rw [List.filterMap_filter]
  refine List.filterMap_congr fun rule _ => ?_
  cases rule <;> rfl

variable [Weight W]

/-- A table prices every turn as its rules mean it, whatever their order and however often they are
repeated: the look at the junctions changes no cost, and neither does a new order of the rules in
which the penalties follow one another as before. The junctions are the nodes with a rule. -/
theorem turnTable_means_rules (rules : List (TurnRule W)) :
    (∀ turn, (TurnTable.ofRules rules).cost turn = costOf rules turn ∧
      (TurnTable.ofRules rules).cost turn = (TurnTable.ofRules rules).ruledCost turn) ∧
    (∀ others : List (TurnRule W), others.Perm rules →
      others.filter isPenalty = rules.filter isPenalty →
      ∀ turn, (TurnTable.ofRules others).cost turn = (TurnTable.ofRules rules).cost turn) ∧
    (TurnTable.ofRules rules).junctionCount = (rules.map (·.turn.via)).toFinset.card := by
  refine ⟨fun turn => ⟨TurnTable.cost_ofRules rules turn, TurnTable.cost_eq_ruledCost rules turn⟩,
    fun others moved penalties turn => ?_, TurnTable.junctionCount_ofRules rules⟩
  rw [TurnTable.cost_ofRules, TurnTable.cost_ofRules, costOf, costOf,
    TurnTable.forbids_perm moved, ← penaltyOf?_filter others, penalties, penaltyOf?_filter]

/-- At a junction whose rules overlap, the last penalty holds for the turn that is allowed, and the
one beside it is forbidden. The first two rules may change places. -/
theorem turnTable_means_rules_junction :
    let rules : List (TurnRule Exact) := [.only ⟨1, 5, 2⟩, .penalty ⟨1, 5, 2⟩ (.finite 7),
      .ban ⟨3, 5, 2⟩, .penalty ⟨1, 5, 2⟩ (.finite 9)]
    let others : List (TurnRule Exact) := [.penalty ⟨1, 5, 2⟩ (.finite 7), .only ⟨1, 5, 2⟩,
      .ban ⟨3, 5, 2⟩, .penalty ⟨1, 5, 2⟩ (.finite 9)]
    others.Perm rules ∧ others.filter isPenalty = rules.filter isPenalty ∧
      (TurnTable.ofRules others).cost ⟨1, 5, 2⟩ = .finite 9 ∧
      (TurnTable.ofRules others).cost ⟨1, 5, 3⟩ = .infinity ∧
      (TurnTable.ofRules rules).junctionCount = 1 := by
  intro rules others
  have moved : others.Perm rules := .swap _ _ _
  obtain ⟨meant, reordered, junctions⟩ := turnTable_means_rules rules
  refine ⟨moved, rfl, ?_, ?_, junctions⟩
  · rw [reordered others moved rfl, (meant _).1]
    rfl
  · rw [reordered others moved rfl, (meant _).1]
    rfl

end RouteSearch
