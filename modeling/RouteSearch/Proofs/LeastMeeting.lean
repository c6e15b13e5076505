/-
This file proves that the best meeting weighs the least of all ways through a state of both
trees, whatever was called. Prices may be negative here, so labels that were settled may become
cheaper again.
-/

import RouteSearch.Proofs.Answer
import RouteSearch.Proofs.Calls
import Mathlib.Order.Bounds.Defs

namespace RouteSearch

variable {X S : Type} {planner : Planner Exact X S} {search : Search Exact X S}
  {direction : Direction}

/-- Every state of both trees joins them, and the best meeting weighs the least of the joins. All
weights are those that the labels have now. -/
structure Tallied (planner : Planner Exact X S) (search : Search Exact X S) : Prop where
  tidy : ∀ side, (search.tree side).Tidy
  overlaps : ∀ {side key id}, (search.tree side).lookup? key = some id →
    ∃ overlap, planner.Overlap key overlap
  least : ∀ {key ids weight}, Joins planner search.trees key ids weight → search.Beats weight
  best : ∀ {meeting}, search.best = some meeting → ∃ key ids weight,
    Joins planner search.trees key ids weight ∧ meeting.weight = .finite weight

namespace Tallied

theorem proper (tallied : Tallied planner search) : search.Proper := by
  intro meeting isBest
  obtain ⟨_, _, weight, _, isWeight⟩ := tallied.best isBest
  exact ⟨weight, isWeight⟩

/-- A state that both trees know joins them. -/
theorem joins (tallied : Tallied planner search) {key : StateKey} {ids : Sides LabelId}
    (found : ∀ side, (search.tree side).lookup? key = some (ids.get side)) :
    ∃ weight, Joins planner search.trees key ids weight := by
  obtain ⟨source, atSource⟩ := (tallied.tidy .forward).inside (found .forward)
  obtain ⟨target, atTarget⟩ := (tallied.tidy .backward).inside (found .backward)
  obtain ⟨sourceValue, isSource⟩ := (tallied.tidy .forward).finite atSource
  obtain ⟨targetValue, isTarget⟩ := (tallied.tidy .backward).finite atTarget
  obtain ⟨overlap, overlaps⟩ := tallied.overlaps (found .forward)
  exact ⟨_, .of_labels (found .forward) (found .backward) atSource atTarget isSource isTarget
    overlaps⟩

/-- The best meeting weighs the least of the joins, and there is none as long as no state is in
both trees. -/
theorem isLeast (tallied : Tallied planner search) :
    (search.best = none ∧ search.bestWeight = .infinity ∧
      ¬ ∃ key, ∀ side, ∃ id, (search.tree side).lookup? key = some id) ∨
    ∃ weight, search.bestWeight = .finite weight ∧
      IsLeast {weight | ∃ key ids, Joins planner search.trees key ids weight} weight := by
  cases best : search.best with
  | none =>
      have endless : search.bestWeight = .infinity := by rw [Search.bestWeight, best]; rfl
      refine .inl ⟨rfl, endless, ?_⟩
      rintro ⟨key, common⟩
      obtain ⟨source, foundSource⟩ := common .forward
      obtain ⟨target, foundTarget⟩ := common .backward
      obtain ⟨weight, joins⟩ : ∃ weight, Joins planner search.trees key ⟨source, target⟩ weight :=
        tallied.joins fun side => by
          cases side with
          | forward => exact foundSource
          | backward => exact foundTarget
      obtain ⟨least, _, isLeast⟩ := tallied.least joins
      cases endless.symm.trans isLeast
  | some meeting =>
      obtain ⟨key, ids, weight, joins, isWeight⟩ := tallied.best best
      have isBest := (Search.bestWeight_of_best best).trans isWeight
      refine .inr ⟨weight, isBest, ⟨key, ids, joins⟩, ?_⟩
      rintro other ⟨otherKey, otherIds, otherJoins⟩
      obtain ⟨least, atMost, isLeast⟩ := tallied.least otherJoins
      rw [isBest, Exact.finite.injEq] at isLeast
      exact isLeast ▸ atMost

/-- Nothing changes with the queues of a search, or with the labels that count as settled. -/
theorem congr (tallied : Tallied planner search) {after : Search Exact X S}
    (labels : ∀ side id, (after.tree side).label? id = (search.tree side).label? id)
    (lookups : ∀ side key, (after.tree side).lookup? key = (search.tree side).lookup? key)
    (best : after.best = search.best) : Tallied planner after where
  tidy side := (tallied.tidy side).congr (labels side) (lookups side)
  overlaps found := tallied.overlaps ((lookups _ _).symm.trans found)
  least joins := by
    have before := joins.congr (fun side => (lookups side _).symm) fun side => (labels side _).symm
    obtain ⟨least, atMost, isLeast⟩ := tallied.least before
    exact ⟨least, atMost, (Search.bestWeight_congr best).trans isLeast⟩
  best isBest := by
    obtain ⟨key, ids, weight, joins, isWeight⟩ := tallied.best (best.symm.trans isBest)
    exact ⟨key, ids, weight, joins.congr (fun side => lookups side _) fun side => labels side _,
      isWeight⟩

theorem withTree (tallied : Tallied planner search) {tree : SearchTree Exact X}
    (labels : ∀ id, tree.label? id = (search.tree direction).label? id)
    (lookups : ∀ key, tree.lookup? key = (search.tree direction).lookup? key) :
    Tallied planner (search.withTree direction tree) := by
  apply tallied.congr
  · intro side id
    rcases Direction.eq_or_opposite direction side with rfl | rfl
    · rw [Search.tree_withTree, labels]
    · rw [Search.tree_opposite_withTree]
  · intro side key
    rcases Direction.eq_or_opposite direction side with rfl | rfl
    · rw [Search.tree_withTree, lookups]
    · rw [Search.tree_opposite_withTree]
  · rfl

section Write

variable {arc : Arc Exact} {label : Label Exact X} {parent id : LabelId} {value : Rat}
  {tree : SearchTree Exact X}

/-- The state that is written down overlaps, as all others do. -/
theorem overlaps_write (lawful : planner.network.Lawful)
    (level : planner.pricing.Level planner.network) (tallied : Tallied planner search)
    (writes : (search.tree direction).Writes (planner.settings.stateKind.key arc direction) label
      id tree)
    (comes : planner.ComesOver direction parent arc label) {side : Direction} {key : StateKey}
    {other : LabelId}
    (found : ((search.trees.set direction tree).get side).lookup? key = some other) :
    ∃ overlap, planner.Overlap key overlap := by
  rcases Direction.eq_or_opposite direction side with rfl | rfl
  · rw [Sides.get_set, writes.lookup?] at found
    split at found
    · rename_i isWritten
      exact isWritten ▸ comes.overlaps lawful level
    · exact tallied.overlaps found
  · rw [Sides.get_opposite_set] at found
    exact tallied.overlaps found

/-- Writing down a label and looking for its state in the other tree keeps the best meeting the
least: a join in another state is as it was, and one in this state has become cheaper. -/
theorem write (mid : Search Exact X S) (lawful : planner.network.Lawful)
    (level : planner.pricing.Level planner.network) (tallied : Tallied planner search)
    (writes : (search.tree direction).Writes (planner.settings.stateKind.key arc direction) label
      id tree)
    (comes : planner.ComesOver direction parent arc label) (isValue : label.weight = .finite value)
    (trees : mid.trees = search.trees.set direction tree) (best : mid.best = search.best) :
    Tallied planner (planner.meet direction arc id mid) := by
  obtain ⟨here, there⟩ := Search.tree_of_set trees
  have midWeight : mid.bestWeight = search.bestWeight := Search.bestWeight_congr best
  have tidy (side : Direction) : (mid.tree side).Tidy := by
    rcases Direction.eq_or_opposite direction side with rfl | rfl
    · exact here ▸ (tallied.tidy side).write writes isValue
    · exact there ▸ tallied.tidy direction.opposite
  have elsewhere {key : StateKey} {ids : Sides LabelId} {weight : Rat}
      (differs : key ≠ planner.settings.stateKind.key arc direction) :
      Joins planner mid.trees key ids weight ↔ Joins planner search.trees key ids weight :=
    trees ▸ Joins.elsewhere (tallied.tidy direction) writes differs
  have found : (mid.tree direction).lookup? (planner.settings.stateKind.key arc direction) =
      some id := here ▸ writes.indexed
  have atId : (mid.tree direction).label? id = some label := here ▸ writes.label?
  obtain ⟨newBest, meetings, isMet, beats, choice⟩ := planner.meet_spec lawful level
    (tidy direction.opposite) comes isValue found atId
    (fun meeting isBest => tallied.proper meeting (best ▸ isBest))
  rw [isMet] at beats ⊢
  refine ⟨tidy, fun found => tallied.overlaps_write lawful level writes comes (trees ▸ found),
    fun {key ids weight} joins => ?_, fun {meeting} isBest => ?_⟩
  · by_cases same : key = planner.settings.stateKind.key arc direction
    · exact beats ids weight (same ▸ joins)
    · obtain ⟨least, atMost, isLeast⟩ := tallied.least ((elsewhere same).mp joins)
      have wasLeast : mid.bestWeight = .finite least := midWeight.trans isLeast
      rcases choice with kept | ⟨_, _, less, _, _, isNew, cheaper⟩
      · exact ⟨least, atMost, (Search.bestWeight_congr kept).trans wasLeast⟩
      · have improved : less < least := by
          by_contra notLess
          exact cheaper ⟨least, not_lt.mp notLess, wasLeast⟩
        exact ⟨less, improved.le.trans atMost, by simp [Search.bestWeight, isNew]⟩
  · rcases choice with kept | ⟨ids, _, weight, joins, _, isNew, _⟩
    · have before : search.best = some meeting := best.symm.trans (kept.symm.trans isBest)
      obtain ⟨key, ids, weight, joins, isWeight⟩ := tallied.best before
      have differs := joins.apart writes isValue ((Search.bestWeight_of_best isBest).trans isWeight)
        fun ids weight joins => beats ids weight (trees ▸ joins)
      exact ⟨key, ids, weight, (elsewhere differs).mpr joins, isWeight⟩
    · obtain rfl := Option.some.inj (isNew.symm.trans isBest)
      exact ⟨_, ids, weight, joins, rfl⟩

/-- Looking over one arc keeps the best meeting the least. -/
theorem relax (lawful : planner.network.Lawful) (level : planner.pricing.Level planner.network)
    (maker : planner.maker.Lawful) (tracks : planner.settings.tracksMeeting = true)
    (step : Option (ArcFilter Exact)) (isValue : label.weight = .finite value)
    (member : arc ∈ planner.network.arcs label.node) (tallied : Tallied planner search) :
    Tallied planner (planner.relax direction step id label search arc) := by
  rcases planner.relax_eq direction step id label search arc with
    same | ⟨written, mid, _, bounded, recorded, relaxed⟩
  · rwa [same]
  · obtain ⟨made, tree, makerState, updates, rfl, writes, _, weight, isParent, _⟩ :=
      planner.record_eq_some maker recorded
    obtain ⟨isOpen, _, cost, isCost, isSum⟩ := planner.reachWeight_bounded
      (fun isOpen => level.isNumber member isOpen label.edge) isValue bounded
    rw [relaxed, if_pos tracks]
    exact tallied.write _ lawful level writes ⟨⟨_, member⟩, isOpen, ⟨_, cost, isCost⟩, isParent⟩
      (weight.trans isSum) rfl rfl

end Write

/-- A step of either direction keeps the best meeting the least. -/
theorem advance (lawful : planner.network.Lawful) (level : planner.pricing.Level planner.network)
    (maker : planner.maker.Lawful) (tracks : planner.settings.tracksMeeting = true)
    (step : Option (ArcFilter Exact)) (tallied : Tallied planner search) :
    Tallied planner (planner.advanceUnder direction step search).2 := by
  have advances := planner.advances direction step search
  generalize planner.advanceUnder direction step search = outcome at advances ⊢
  cases advances with
  | stuck empty => exact tallied.withTree (fun _ => rfl) fun _ => rfl
  | passed popped idle =>
      obtain ⟨labels, lookups⟩ := SearchTree.pop?_keeps popped
      exact tallied.withTree labels lookups
  | stopped popped atId beaten =>
      obtain ⟨labels, lookups⟩ := SearchTree.pop?_keeps popped
      exact tallied.withTree labels lookups
  | expanded popped atId unbeaten =>
      obtain ⟨labels, lookups⟩ := SearchTree.pop?_keeps popped
      obtain ⟨value, isValue⟩ := (tallied.tidy direction).finite ((labels _).symm.trans atId)
      exact planner.expand_keeps (P := Tallied planner)
        (fun _ _ member tallied => tallied.relax lawful level maker tracks step isValue member)
        (tallied.withTree labels lookups)

theorem follow (lawful : planner.network.Lawful) (level : planner.pricing.Level planner.network)
    (maker : planner.maker.Lawful) (tracks : planner.settings.tracksMeeting = true)
    (steps : List (Step Exact)) (tallied : Tallied planner search) :
    Tallied planner (planner.follow steps search) := by
  induction steps generalizing search with
  | nil => exact tallied
  | cons step steps ih => exact ih (tallied.advance lawful level maker tracks step.filter)

/-- No call takes it back that the best meeting of a query is the least. -/
theorem invariant (lawful : planner.network.Lawful)
    (level : planner.pricing.Level planner.network) (maker : planner.maker.Lawful)
    (tracks : planner.settings.tracksMeeting = true) :
    planner.Invariant fun search => search.seeded = true ∧ Tallied planner search where
  congr _ _ trees best seeded := fun ⟨isSeeded, tallied⟩ => ⟨seeded.trans isSeeded,
    tallied.congr
      (fun side _ => congrArg (SearchTree.label? · _) (congrArg (Sides.get · side) trees))
      (fun side _ => congrArg (SearchTree.lookup? · _) (congrArg (Sides.get · side) trees)) best⟩
  advance {search} direction := fun ⟨isSeeded, tallied⟩ =>
    ⟨(planner.advanceUnder_touches direction none search).seeded.trans isSeeded,
      tallied.advance lawful level maker tracks none⟩
  seed _ _ _ _ _ unseeded := fun ⟨isSeeded, _⟩ => by
    rw [unseeded] at isSeeded
    cases isSeeded

end Tallied

section Query

variable {begun : Search Exact X S} {ends : Sides NodeId} {weights : Sides Rat} {now : Nat}

/-- The roots of a query are as it needs them, unless it is over at once. -/
theorem Search.Blank.tallied (blank : search.Blank) (maker : planner.maker.Lawful)
    (tracks : planner.settings.tracksMeeting = true) (ends : Sides NodeId) (weights : Sides Rat)
    (now : Nat) (away : planner.isEdgeBased = true → ends.forward = ends.backward →
      search.isPinned = true) :
    Tallied planner (planner.planted ends.forward (.finite weights.forward) ends.backward
      (.finite weights.backward) now search) := by
  have planted := blank.planted maker ends weights now
  have met := blank.planted_met maker ends weights now
  refine ⟨fun side => (planted side).grown.tidy, fun {side key id} found => ⟨0, ?_⟩,
    met.least tracks, fun {meeting} isBest => ?_⟩
  · unfold Planner.Overlap
    rw [planner.isEdgeBased_eq_false.mp ((planted side).lookup? found).1]
  · rcases met.best isBest with immediate | ⟨_, key, ids, weight, joins, isWeight, _⟩
    · have unpinned := Search.isPinned_eq_false.mpr immediate.unpinned
      rw [away immediate.edgeBased immediate.sameEnds] at unpinned
      cases unpinned
    · exact ⟨key, ids, weight, joins, isWeight⟩

/-- After a query was started and whatever was called since, the best meeting weighs the least of
all ways through a state that both trees know, by the weights that their labels have now. There
is none exactly if no state is in both trees. A query of an edge-based search between a node and
itself that no pin keeps going is left out. -/
theorem calls_leastMeeting {list : EdgeList Exact} (network : planner.network = list.pack.network)
    (level : planner.pricing.Level list.pack.network) (maker : planner.maker.Lawful)
    (tracks : planner.settings.tracksMeeting = true) (blank : search.Blank)
    (accepted : planner.start ends.forward (.finite weights.forward) ends.backward
      (.finite weights.backward) now search = .ok begun)
    (away : planner.isEdgeBased = true → ends.forward = ends.backward → search.isPinned = true)
    (clock : Clock) (calls : List (Call Exact)) :
    let after := (planner.performAll clock calls begun).2
    (∀ key ids, (∀ side, (after.tree side).lookup? key = some (ids.get side)) →
      ∃ weight, Joins planner after.trees key ids weight) ∧
    ((after.best = none ∧ after.bestWeight = .infinity ∧
        ¬ ∃ key, ∀ side, ∃ id, (after.tree side).lookup? key = some id) ∨
      ∃ weight, after.bestWeight = .finite weight ∧
        IsLeast {weight | ∃ key ids, Joins planner after.trees key ids weight} weight) := by
  have lawful : planner.network.Lawful := network ▸ list.lawful_pack
  rw [← network] at level
  obtain ⟨isBegun, _⟩ := planner.start_eq_ok accepted
  have begins : begun.seeded = true ∧ Tallied planner begun := by
    rw [isBegun]
    refine ⟨planner.seed_seeded _ _ _ _ _ _, ?_⟩
    rw [planner.seed_eq_follow]
    exact (blank.tallied maker tracks ends weights now away).follow lawful level maker tracks _
  have tallied := ((Tallied.invariant lawful level maker tracks).performAll clock calls begins).2
  exact ⟨fun key ids found => tallied.joins found, tallied.isLeast⟩

/-- A pricing that pays for every turn from one street into the next. -/
def Pricing.paidTurns : Pricing Exact where
  name := "paid_turns"
  cost := fun arc _ neighbour =>
    if neighbour = noEdge then arc.length else arc.length + .finite (-200)

theorem Pricing.paidTurns_level (list : EdgeList Exact) :
    paidTurns.Level list.pack.network where
  isNumber {node arc _} member _ neighbour := by
    have length := list.length_isPrice node arc member
    unfold paidTurns
    dsimp only
    cases extent : arc.length <;> rw [extent] at length
    case finite metres => split <;> simp
    case infinity => split <;> exact fun undefined => nomatch undefined
    all_goals exact length.elim
  travel _ _ := rfl
  alone {_ arc _ neighbour value} _ _ isCost := by
    unfold paidTurns at isCost ⊢
    dsimp only at isCost ⊢
    rw [if_pos rfl]
    split at isCost
    · exact ⟨value, isCost⟩
    · obtain ⟨metres, _, isLength, _⟩ := Exact.add_eq_finite isCost
      exact ⟨metres, isLength⟩

/-- A planner over the two streets that is paid for turns. -/
def Planner.overPaidTurns : Planner Exact Unit Unit where
  network := EdgeList.streets.pack.network
  pricing := .paidTurns
  settings := { stateKind := .edgeBased }
  maker := .plain

theorem calls_leastMeeting_streets : ∃ begun : Search Exact Unit Unit,
    Planner.overPaidTurns.start 0 (.finite (-1)) 2 (.finite 4) 0 (.fresh ()) = .ok begun ∧
      let after := (Planner.overPaidTurns.performAll (fun _ => 0)
        [.advance .forward, .restrict (some (ArcFilter.denying [1])), .advance .backward] begun).2
      (∀ key ids, (∀ side, (after.tree side).lookup? key = some (ids.get side)) →
        ∃ weight, Joins Planner.overPaidTurns after.trees key ids weight) ∧
      ((after.best = none ∧ after.bestWeight = .infinity ∧
          ¬ ∃ key, ∀ side, ∃ id, (after.tree side).lookup? key = some id) ∨
        ∃ weight, after.bestWeight = .finite weight ∧
          IsLeast {weight | ∃ key ids, Joins Planner.overPaidTurns after.trees key ids weight}
            weight) := by
  let ends : Sides NodeId := ⟨0, 2⟩
  let weights : Sides Rat := ⟨-1, 4⟩
  have blank := Planner.overPaidTurns.performAll_blank (fun _ => 0) [] () rfl
  have accepted : Planner.overPaidTurns.start ends.forward (.finite weights.forward) ends.backward
      (.finite weights.backward) 0 (.fresh ()) = .ok (Planner.overPaidTurns.seed 0 (.finite (-1)) 2
        (.finite 4) 0 (.fresh ())) := rfl
  have apart (_ : Planner.overPaidTurns.isEdgeBased = true) :
      ends.forward = ends.backward → (Search.fresh () : Search Exact Unit Unit).isPinned = true :=
    nofun
  exact ⟨_, accepted, calls_leastMeeting rfl (Pricing.paidTurns_level EdgeList.streets)
    LabelMaker.plain_lawful rfl blank accepted apart _ _⟩

end Query

end RouteSearch
