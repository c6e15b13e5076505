/-
This file reads the walk through the best meeting from the branches of both trees, and its price
from the weight of the meeting.
-/

import RouteSearch.Proofs.Reach

namespace RouteSearch

variable {X S : Type} {planner : Planner Exact X S} {query : Query} {search : Search Exact X S}
  {meeting : Meeting Exact}

/-- What lets the weight of a meeting measure a walk: a lawful planner, whose pricing does not look
at turns unless its states are edges, and a filter that does not look at the sense of an arc. -/
structure Planner.Measures (planner : Planner Exact X S) (query : Query) : Prop
    extends planner.Lawful where
  turnFree : planner.settings.stateKind = .nodeBased → planner.pricing.TurnFree
  plain : planner.network.Plain
  unoriented : ArcFilter.Unoriented planner.network query.filter

/-- The branches at the ends of a meeting make up a walk that the query admits. -/
structure Carries (planner : Planner Exact X S) (query : Query) (search : Search Exact X S)
    (meeting : Meeting Exact) (before : Trail) (rest : Walk Exact) : Prop where
  forward : ∃ label,
    Branch planner query .forward (search.tree .forward) before meeting.ends.forward label
  backward : ∃ label, Branch planner query .backward (search.tree .backward)
    (rest.map Arc.flip) meeting.ends.backward label
  admissible : Walk.Admissible planner.network query.filter query.pins query.ends.forward
    query.ends.backward (before.reverse ++ rest)
  weight : ∃ cost, Walk.cost planner.pricing noEdge (before.reverse ++ rest) = .finite cost ∧
    (meeting.weight = .finite (cost + (query.weights.forward + query.weights.backward)) ∨
      Immediate planner query meeting ∧ cost = 0)

/-- The walk of an immediate meeting is empty. -/
theorem Immediate.carries (immediate : Immediate planner query meeting)
    (grown : ∀ side, Grown planner query side (search.tree side)) :
    Carries planner query search meeting [] [] where
  forward := by
    obtain ⟨root, settled, holds, isRoot⟩ := (grown .forward).rooted
    rw [immediate.ends]
    exact ⟨root, .root holds isRoot⟩
  backward := by
    obtain ⟨root, settled, holds, isRoot⟩ := (grown .backward).rooted
    rw [immediate.ends]
    exact ⟨root, .root holds isRoot⟩
  admissible := by
    refine ⟨immediate.sameEnds, fun arc member => absurd member List.not_mem_nil, ?_, ?_⟩
    · intro pin isPin
      cases (immediate.unpinned .forward).symm.trans isPin
    · intro pin isPin
      cases (immediate.unpinned .backward).symm.trans isPin
  weight := ⟨0, rfl, .inr ⟨immediate, rfl⟩⟩

theorem Trail.map_flip_flip (trail : Trail) : (trail.map Arc.flip).map Arc.flip = trail := by
  rw [List.map_map]
  exact (List.map_congr_left fun arc _ => Arc.flip_flip arc).trans (List.map_id trail)

/-- Branches that end on one node make up a walk. -/
theorem carries_node (lawful : planner.Lawful) (plain : planner.network.Plain)
    (unoriented : ArcFilter.Unoriented planner.network query.filter)
    (turnFree : planner.pricing.TurnFree) (unpinned : ∀ side, query.pins.get side = none)
    {before there : Trail} {forward backward : Label Exact X} {source target : Rat}
    (left : Branch planner query .forward (search.tree .forward) before meeting.ends.forward
      forward)
    (right : Branch planner query .backward (search.tree .backward) there meeting.ends.backward
      backward)
    (sameNode : forward.node = backward.node) (isSource : forward.weight = .finite source)
    (isTarget : backward.weight = .finite target)
    (isWeight : meeting.weight = .finite (source + target)) :
    Carries planner query search meeting before (there.map Arc.flip) := by
  have leadsLeft := left.leads lawful.network
  have leadsRight : Trail.Leads planner.network query .backward
      ((there.map Arc.flip).map Arc.flip) forward.node := by
    rw [Trail.map_flip_flip, sameNode]
    exact right.leads lawful.network
  obtain ⟨connects, allowed, _⟩ :=
    (Trail.leads_backward lawful.network plain unoriented _ _).mp leadsRight
  have meetsPins : Walk.MeetsPins query.pins (before.reverse ++ there.map Arc.flip) := by
    constructor
    · intro pin isPin
      cases (unpinned .forward).symm.trans isPin
    · intro pin isPin
      cases (unpinned .backward).symm.trans isPin
  obtain ⟨first, fromSource, isFirst, isFromSource, rfl⟩ :=
    Exact.add_eq_finite (left.weight_eq.symm.trans isSource)
  obtain ⟨second, fromTarget, isSecond, isFromTarget, rfl⟩ :=
    Exact.add_eq_finite (right.weight_eq.symm.trans isTarget)
  have sourceIs : query.weights.forward = fromSource := Exact.finite.inj isFromSource
  have targetIs : query.weights.backward = fromTarget := Exact.finite.inj isFromTarget
  refine ⟨⟨_, left⟩, ⟨_, (Trail.map_flip_flip there).symm ▸ right⟩,
    Trail.admissible_join lawful.network plain unoriented leadsLeft leadsRight meetsPins,
    first + second, ?_, .inl ?_⟩
  · rw [Trail.cost_reverse_append, Walk.cost_turnFree turnFree,
      ← Walk.cost_eq_trail lawful.pricing connects fun arc member => (allowed arc member).1,
      Trail.map_flip_flip, isFirst, isSecond, Exact.finite_add]
  · rw [isWeight, sourceIs, targetIs]
    exact congrArg Exact.finite (add_add_add_comm _ _ _ _)

/-- Branches that both end over one arc make up a walk over it, and their labels count the
travel over the arc twice. -/
theorem walk_over (lawful : planner.Lawful) (plain : planner.network.Plain)
    (unoriented : ArcFilter.Unoriented planner.network query.filter)
    (edgeBased : planner.settings.stateKind = .edgeBased) {before after : Trail} {arc : Arc Exact}
    {here there : LabelId} {forward backward : Label Exact X} {source target overlap : Rat}
    (left : Branch planner query .forward (search.tree .forward) (arc :: before) here forward)
    (right : Branch planner query .backward (search.tree .backward) (arc.flip :: after) there
      backward)
    (isSource : forward.weight = .finite source) (isTarget : backward.weight = .finite target)
    (overlaps : planner.Overlap (StateKind.edgeBased.key arc .forward) overlap) :
    Walk.Admissible planner.network query.filter query.pins query.ends.forward
        query.ends.backward (before.reverse ++ arc :: after.map Arc.flip) ∧
      ∃ cost, Walk.cost planner.pricing noEdge (before.reverse ++ arc :: after.map Arc.flip) =
          .finite cost ∧
        source + target - overlap = cost + (query.weights.forward + query.weights.backward) := by
  have leadsLeft := left.leads lawful.network
  have leadsRight : Trail.Leads planner.network query .backward
      ((arc :: after.map Arc.flip).map Arc.flip) backward.node := by
    rw [List.map_cons, Trail.map_flip_flip]
    exact right.leads lawful.network
  refine ⟨Trail.admissible_over lawful.network plain unoriented leadsLeft leadsRight, ?_⟩
  obtain ⟨connects, allowed, _⟩ :=
    (Trail.leads_backward lawful.network plain unoriented _ _).mp leadsRight
  have both := Walk.cost_over lawful.pricing before connects
    fun other member => (allowed other member).1
  obtain ⟨first, fromSource, isFirst, isFromSource, rfl⟩ :=
    Exact.add_eq_finite (left.weight_eq.symm.trans isSource)
  obtain ⟨second, fromTarget, isSecond, isFromTarget, rfl⟩ :=
    Exact.add_eq_finite (right.weight_eq.symm.trans isTarget)
  have sourceIs : query.weights.forward = fromSource := Exact.finite.inj isFromSource
  have targetIs : query.weights.backward = fromTarget := Exact.finite.inj isFromTarget
  rw [List.map_cons, Trail.map_flip_flip, isFirst, isSecond, Exact.finite_add] at both
  obtain ⟨cost, alone, isCost, isAlone, sum⟩ := Exact.add_eq_finite both.symm
  have sameOverlap := overlaps.unique lawful.network (planner.overlap_of_cost lawful.network
    lawful.pricing.level edgeBased connects.1 leadsLeft.2.2.1.1 isAlone)
  refine ⟨cost, isCost, ?_⟩
  rw [sameOverlap, sourceIs, targetIs]
  linarith

/-- In an edge-based search a branch to a state ends over the arc of the state. -/
theorem Branch.last_arc {direction : Direction} {tree : SearchTree Exact X} {trail : Trail}
    {id : LabelId} {label : Label Exact X} {key : StateKey}
    (edgeBased : planner.settings.stateKind = .edgeBased)
    (branch : Branch planner query direction tree trail id label)
    (atKey : planner.stateAt? query direction trail = some key) :
    ∃ arc before parent above, trail = arc :: before ∧
      StateKind.edgeBased.key arc direction = key ∧
      Branch planner query direction tree before parent above ∧
      planner.Reaches query direction parent above arc label := by
  cases branch with
  | root holds isRoot =>
      rw [Planner.stateAt?, Planner.isEdgeBased, edgeBased] at atKey
      cases atKey
  | step branch closed reaches holds indexed =>
      rw [Planner.stateAt?, edgeBased] at atKey
      exact ⟨_, _, _, _, rfl, Option.some.inj atKey, branch, reaches⟩

/-- The arcs that lead to one state in both directions are views of each other. -/
theorem Network.Lawful.eq_flip {network : Network Exact} (lawful : network.Lawful)
    (direction : Direction) {node other : NodeId} {arc last : Arc Exact}
    (member : arc ∈ network.arcs node) (lastMember : last ∈ network.arcs other)
    (sameKey : StateKind.edgeBased.key last direction.opposite =
      StateKind.edgeBased.key arc direction) : last = arc.flip := by
  obtain ⟨sameEdge, sameSense⟩ :=
    StateKind.key_eq ((StateKind.key_flip last direction).trans sameKey)
  rw [lawful.eq_of_reversed (lawful.flip_mem lastMember) member sameEdge sameSense, Arc.flip_flip]

/-- In an edge-based search the branches of both trees to one state end over one arc. -/
theorem Branch.shared_arc (lawful : planner.network.Lawful)
    (edgeBased : planner.settings.stateKind = .edgeBased) {trail there : Trail}
    {here other : LabelId}
    {forward backward : Label Exact X} {key : StateKey}
    (left : Branch planner query .forward (search.tree .forward) trail here forward)
    (right : Branch planner query .backward (search.tree .backward) there other backward)
    (atKey : planner.stateAt? query .forward trail = some key)
    (atKeyThere : planner.stateAt? query .backward there = some key) :
    ∃ arc before after, trail = arc :: before ∧ there = arc.flip :: after ∧
      StateKind.edgeBased.key arc .forward = key ∧
      (∃ parent above, forward.parent = some parent ∧
        Branch planner query .forward (search.tree .forward) before parent above) ∧
      ∃ parent above, backward.parent = some parent ∧
        Branch planner query .backward (search.tree .backward) after parent above := by
  obtain ⟨arc, before, parent, above, rfl, isKey, branch, reaches⟩ := left.last_arc edgeBased atKey
  obtain ⟨last, after, parentThere, aboveThere, rfl, isKeyThere, branchThere, reachesThere⟩ :=
    right.last_arc edgeBased atKeyThere
  have flipped : last = arc.flip :=
    lawful.eq_flip .forward reaches.member reachesThere.member (isKeyThere.trans isKey.symm)
  subst flipped
  exact ⟨arc, before, after, rfl, rfl, isKey, ⟨parent, above, reaches.parent, branch⟩, parentThere,
    aboveThere, reachesThere.parent, branchThere⟩

/-- Branches of both trees to one edge make up a walk over it, whichever of them the meeting
steps back from. -/
theorem carries_edge (lawful : planner.Lawful) (plain : planner.network.Plain)
    (unoriented : ArcFilter.Unoriented planner.network query.filter)
    (edgeBased : planner.settings.stateKind = .edgeBased) {trail there : Trail}
    {ids : Sides LabelId} {forward backward : Label Exact X} {key : StateKey}
    {source target overlap : Rat}
    (left : Branch planner query .forward (search.tree .forward) trail ids.forward forward)
    (right : Branch planner query .backward (search.tree .backward) there ids.backward backward)
    (atKey : planner.stateAt? query .forward trail = some key)
    (atKeyThere : planner.stateAt? query .backward there = some key)
    (isSource : forward.weight = .finite source) (isTarget : backward.weight = .finite target)
    (overlaps : planner.Overlap key overlap)
    (isWeight : meeting.weight = .finite (source + target - overlap))
    (meetsAt : MeetsAt planner search.trees ids meeting.ends) :
    ∃ before rest, Carries planner query search meeting before rest ∧
      before.reverse ++ rest = trail.reverse ++ there.tail.map Arc.flip := by
  obtain ⟨arc, before, after, rfl, rfl, isKey, ⟨parent, above, isAbove, branch⟩, parentThere,
    aboveThere, isAboveThere, branchThere⟩ :=
      left.shared_arc lawful.network edgeBased right atKey atKeyThere
  obtain ⟨admissible, cost, isCost, sum⟩ := walk_over lawful plain unoriented edgeBased left right
    isSource isTarget (isKey ▸ overlaps)
  rw [sum] at isWeight
  have regroup : before.reverse ++ arc :: after.map Arc.flip =
      (arc :: before).reverse ++ after.map Arc.flip := by simp
  obtain ⟨settledForward, holdsForward⟩ := left.holds
  obtain ⟨settledBackward, holdsBackward⟩ := right.holds
  unfold MeetsAt at meetsAt
  rw [edgeBased] at meetsAt
  obtain ⟨side, label, atId, isParent, other⟩ := meetsAt
  cases side with
  | forward =>
      have sameLabel : forward = label := Option.some.inj (holdsForward.label?.symm.trans atId)
      subst sameLabel
      have atParent : parent = meeting.ends.forward :=
        Option.some.inj (isAbove.symm.trans isParent)
      have atOther : meeting.ends.backward = ids.backward := other
      refine ⟨before, arc :: after.map Arc.flip, ⟨⟨above, atParent ▸ branch⟩, ⟨backward, ?_⟩,
        admissible, cost, isCost, .inl isWeight⟩, regroup⟩
      rw [List.map_cons, Trail.map_flip_flip, atOther]
      exact right
  | backward =>
      have sameLabel : backward = label := Option.some.inj (holdsBackward.label?.symm.trans atId)
      subst sameLabel
      have atParent : parentThere = meeting.ends.backward :=
        Option.some.inj (isAboveThere.symm.trans isParent)
      have atOther : meeting.ends.forward = ids.forward := other
      rw [regroup] at admissible isCost
      refine ⟨arc :: before, after.map Arc.flip, ⟨⟨forward, ?_⟩, ⟨aboveThere, ?_⟩, admissible,
        cost, isCost, .inl isWeight⟩, rfl⟩
      · rw [atOther]
        exact left
      · rw [Trail.map_flip_flip, ← atParent]
        exact branchThere

/-- The walk over trails of both directions that end in one state. If states are edges, both
trails contain the arc at their ends, and the walk has it once. -/
def Planner.walkOver (planner : Planner Exact X S) (trail there : Trail) : Walk Exact :=
  match planner.settings.stateKind with
  | .nodeBased => trail.reverse ++ there.map Arc.flip
  | .edgeBased => trail.reverse ++ there.tail.map Arc.flip

/-- A meeting in the state of a join carries the walk over the branches to the joined labels. -/
theorem Joins.carries (measures : planner.Measures query)
    (grown : ∀ side, Grown planner query side (search.tree side))
    (suited : planner.isEdgeBased = true ∨ ∀ side, query.pins.get side = none)
    {key : StateKey} {ids : Sides LabelId} {weight : Rat}
    (joins : Joins planner search.trees key ids weight)
    (isWeight : meeting.weight = .finite weight)
    (meetsAt : MeetsAt planner search.trees ids meeting.ends) {trail there : Trail}
    {forward backward : Label Exact X}
    (left : Branch planner query .forward (search.tree .forward) trail ids.forward forward)
    (right : Branch planner query .backward (search.tree .backward) there ids.backward backward)
    (atKey : planner.stateAt? query .forward trail = some key)
    (atKeyThere : planner.stateAt? query .backward there = some key) :
    ∃ before rest, Carries planner query search meeting before rest ∧
      before.reverse ++ rest = planner.walkOver trail there := by
  have lawful := measures.toLawful
  obtain ⟨settledForward, holdsForward⟩ := left.holds
  obtain ⟨settledBackward, holdsBackward⟩ := right.holds
  obtain ⟨values, overlap, labels, overlaps, rfl⟩ := joins.weight
  obtain ⟨_, atForward, isSource⟩ := labels .forward
  obtain ⟨_, atBackward, isTarget⟩ := labels .backward
  obtain rfl := Option.some.inj (holdsForward.label?.symm.trans atForward)
  obtain rfl := Option.some.inj (holdsBackward.label?.symm.trans atBackward)
  unfold Planner.walkOver
  cases kind : planner.settings.stateKind with
  | nodeBased =>
      unfold MeetsAt at meetsAt
      rw [kind] at meetsAt
      have unpinned := suited.resolve_left
        (Bool.eq_false_iff.mp (planner.isEdgeBased_eq_false.mpr kind))
      have atNode (side : Direction) {label : Label Exact X} {settled : Bool}
          (holds : (search.tree side).Holds (ids.get side) label settled) : label.node = key :=
        (grown side).injective ((grown side).lookup_node kind holds) (joins.found side)
      unfold Planner.Overlap at overlaps
      rw [kind] at overlaps
      change overlap = 0 at overlaps
      rw [overlaps, sub_zero] at isWeight
      rw [← meetsAt] at left right
      have sameNode : forward.node = backward.node :=
        (atNode .forward holdsForward).trans (atNode .backward holdsBackward).symm
      exact ⟨_, _, carries_node lawful measures.plain measures.unoriented (measures.turnFree kind)
        unpinned left right sameNode isSource isTarget isWeight, rfl⟩
  | edgeBased =>
      exact carries_edge lawful measures.plain measures.unoriented kind left right atKey atKeyThere
        isSource isTarget overlaps isWeight meetsAt

/-- The best meeting carries a walk. -/
theorem Started.carries (measures : planner.Measures query)
    (started : Started planner query search) (best : search.best = some meeting) :
    ∃ before rest, Carries planner query search meeting before rest := by
  have grown := started.underway.grown
  rcases started.underway.met.best best with
    immediate | ⟨_, key, ids, weight, joins, isWeight, meetsAt⟩
  · exact ⟨[], [], immediate.carries grown⟩
  obtain ⟨trail, forward, left, atKey⟩ := (grown .forward).keyed (joins.found .forward)
  obtain ⟨there, backward, right, atKeyThere⟩ := (grown .backward).keyed (joins.found .backward)
  obtain ⟨before, rest, carries, _⟩ :=
    joins.carries measures grown started.suited isWeight meetsAt left right atKey atKeyThere
  exact ⟨before, rest, carries⟩

end RouteSearch
