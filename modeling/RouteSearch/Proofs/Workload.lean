/-
This file proves how much a search does, whatever its weights are: a direction looks from every
label once at most, and takes no more labels than it had a root and arcs to look over.
-/

import RouteSearch.Proofs.Course
import RouteSearch.Proofs.Termination

namespace RouteSearch

variable {W X S : Type}

namespace SearchTree

variable {tree middle after : SearchTree W X}

/-- The label under this id was taken from the queue. -/
def HasSettled (tree : SearchTree W X) (id : LabelId) : Prop :=
  ∃ label, tree.Holds id label true

/-- Looking over so many arcs leaves settled labels settled, takes nothing from the queue, and
puts as many labels into it at most. -/
structure Spreads (tree : SearchTree W X) (count : Nat) (after : SearchTree W X) : Prop where
  visited : after.visited = tree.visited
  queue : after.queue.size ≤ tree.queue.size + count
  settled : ∀ {id}, tree.HasSettled id → after.HasSettled id

theorem Spreads.refl (tree : SearchTree W X) : tree.Spreads 0 tree :=
  ⟨rfl, le_rfl, id⟩

theorem Spreads.trans {first second : Nat} (before : tree.Spreads first middle)
    (later : middle.Spreads second after) : tree.Spreads (first + second) after where
  visited := later.visited.trans before.visited
  queue := by
    have := before.queue
    have := later.queue
    omega
  settled := later.settled ∘ before.settled

variable [Weight W]

theorem Writes.spreads {key : StateKey} {label : Label W X} {id : LabelId}
    (writes : tree.Writes key label id after) : tree.Spreads 1 after where
  visited := writes.visited
  queue := by
    rw [writes.queue]
    exact MinQueue.size_push_le _ _ _
  settled := by
    rintro other ⟨found, holds⟩
    by_cases same : other = id
    · subst same
      rcases writes.written with ⟨_, fresh, _⟩ | ⟨_, _, _, known, _, kept, _⟩
      · exact absurd holds.lt_size (fresh ▸ Nat.lt_irrefl _)
      · obtain ⟨_, rfl⟩ := holds.unique known
        exact ⟨label, kept⟩
    · exact ⟨found, (writes.elsewhere other same).trans holds⟩

/-- A pop takes one label from the queue. It settles the label, and tells whether the label was
settled before. -/
theorem pop?_counts {id : LabelId} {seen : Bool} (popped : tree.pop? = some (id, seen, after)) :
    after.visited = tree.visited + 1 ∧ tree.queue.size = after.queue.size + 1 ∧
      (∀ {other}, tree.HasSettled other → after.HasSettled other) ∧
      (∀ {label}, tree.label? id = some label → after.HasSettled id) ∧
      (seen = false → ¬ tree.HasSettled id) := by
  obtain ⟨labels, _⟩ := pop?_keeps popped
  obtain ⟨visited, _, isOpen⟩ := pop?_settles popped
  obtain ⟨weight, fromQueue, isSeen, _⟩ := pop?_eq_some popped
  have settled {other : LabelId} {label : Label W X} (atOther : tree.label? other = some label)
      (unopened : other = id ∨ ¬ tree.Holds other label false) : after.HasSettled other := by
    rw [← labels] at atOther
    obtain ⟨state, holds⟩ := holds_of_label? atOther
    cases state with
    | true => exact ⟨label, holds⟩
    | false =>
        obtain ⟨differs, before⟩ := isOpen other label holds
        rcases unopened with same | closed
        · exact absurd same differs
        · exact absurd before closed
  refine ⟨visited, MinQueue.size_pop? fromQueue, ?_, fun atId => settled atId (.inl rfl), ?_⟩
  · rintro other ⟨label, holds⟩
    refine settled holds.label? (.inr fun openToo => ?_)
    cases (holds.unique openToo).2
  · rintro unseen ⟨label, holds⟩
    rw [isSeen, holds] at unseen
    cases unseen

end SearchTree

variable [Weight W] {planner : Planner W X S} {direction : Direction} {search : Search W X S}

namespace Planner

/-- Looking over an arc writes down one label at most. -/
theorem relax_spreads (maker : planner.maker.Lawful) (direction : Direction)
    (step : Option (ArcFilter W)) (id : LabelId) (label : Label W X) (search : Search W X S)
    (arc : Arc W) :
    (search.tree direction).Spreads 1
      ((planner.relax direction step id label search arc).tree direction) := by
  rcases planner.relax_eq direction step id label search arc with
    same | ⟨written, mid, _, _, recorded, relaxed⟩
  · rw [same]
    exact ⟨rfl, Nat.le_succ _, fun settled => settled⟩
  · obtain ⟨made, tree, makerState, updates, rfl, writes, _⟩ :=
      planner.record_eq_some maker recorded
    have here : (planner.relax direction step id label search arc).tree direction = tree := by
      rw [relaxed, Search.tree, planner.trees_met]
      exact Sides.get_set _ _ _
    exact here ▸ writes.spreads

theorem expand_spreads (maker : planner.maker.Lawful) (direction : Direction)
    (step : Option (ArcFilter W)) (id : LabelId) (label : Label W X) (search : Search W X S) :
    (search.tree direction).Spreads (planner.network.arcs label.node).length
      ((planner.expand direction step id label search).tree direction) := by
  unfold expand
  generalize planner.network.arcs label.node = arcs
  induction arcs generalizing search with
  | nil => exact .refl _
  | cons arc rest ih =>
      have along := (planner.relax_spreads maker direction step id label search arc).trans
        (ih (planner.relax direction step id label search arc))
      rw [List.length_cons, Nat.add_comm]
      exact along

end Planner

/-- How many arcs there are to look over from these labels. -/
def Taking.arcs (planner : Planner W X S) (takings : List (Taking W X)) : Nat :=
  (takings.map fun taking => (planner.network.arcs taking.label.node).length).sum

/-- The work of a direction is counted. It has settled all that it has taken and looked from no
label twice, and whatever it took or has in its queue was planted or put there over an arc. -/
structure Counted (planner : Planner W X S) (roots : Nat) (taken : List (Taking W X))
    (tree : SearchTree W X) : Prop where
  visited : tree.visited = taken.length
  settled : ∀ taking ∈ taken, tree.HasSettled taking.id
  once : ((taken.filter (·.isExpanded)).map (·.id)).Nodup
  bounded : tree.visited + tree.queue.size ≤
    roots + Taking.arcs planner (taken.filter (·.isExpanded))

namespace Counted

variable {roots : Nat} {taken : List (Taking W X)} {tree after later : SearchTree W X}

omit [Weight W] in
theorem finish (counted : Counted planner roots taken tree) (finished : Bool) :
    Counted planner roots taken (tree.finish finished) :=
  ⟨counted.visited, counted.settled, counted.once, counted.bounded⟩

/-- A label that is taken counts. It may be looked from only if it was not settled before. -/
theorem take (counted : Counted planner roots taken tree) {taking : Taking W X} {count : Nat}
    (popped : tree.pop? = some (taking.id, taking.again, after))
    (atId : tree.label? taking.id = some taking.label) (spreads : after.Spreads count later)
    (within : count ≤ Taking.arcs planner ([taking].filter (·.isExpanded))) :
    Counted planner roots (taken ++ [taking]) later := by
  obtain ⟨visited, queue, kept, settled, unseen⟩ := SearchTree.pop?_counts popped
  constructor
  · rw [spreads.visited, visited, counted.visited, List.length_append, List.length_singleton]
  · intro other member
    rcases List.mem_append.mp member with before | here
    · exact spreads.settled (kept (counted.settled other before))
    · rw [List.mem_singleton.mp here]
      exact spreads.settled (settled atId)
  · rw [List.filter_append, List.map_append]
    refine List.Nodup.append counted.once ?_ ?_
    · exact (List.nodup_singleton taking.id).sublist (List.filter_sublist.map _)
    · intro id before here
      obtain ⟨other, member, rfl⟩ := List.mem_map.mp before
      obtain ⟨again, isAgain, same⟩ := List.mem_map.mp here
      obtain ⟨isTaking, expanded⟩ := List.mem_filter.mp isAgain
      rw [List.mem_singleton.mp isTaking] at same expanded
      rw [Taking.isExpanded, Bool.and_eq_true, Bool.not_eq_true'] at expanded
      apply unseen expanded.1
      rw [same]
      exact counted.settled other (List.mem_of_mem_filter member)
  · rw [List.filter_append, Taking.arcs, List.map_append, List.sum_append]
    have bounded := counted.bounded
    have grown := spreads.queue
    rw [spreads.visited]
    unfold Taking.arcs at bounded within
    omega

/-- A step of the direction counts what it takes. -/
theorem advance {past : List Event}
    (counted : Counted planner roots taken (search.tree direction))
    (maker : planner.maker.Lawful)
    (consistent : Consistent planner direction past (search.tree direction))
    (step : Option (ArcFilter W)) :
    Counted planner roots (taken ++ (search.taking? direction).toList)
      ((planner.advanceUnder direction step search).2.tree direction) := by
  have labelled {id : LabelId} {seen : Bool} {tree : SearchTree W X}
      (popped : (search.tree direction).pop? = some (id, seen, tree)) :
      ∃ label, (search.tree direction).label? id = some label ∧ tree.label? id = some label := by
    obtain ⟨labels, _⟩ := SearchTree.pop?_keeps popped
    obtain ⟨weight, fromQueue, _⟩ := SearchTree.pop?_eq_some popped
    obtain ⟨atTop, _⟩ := MinQueue.pop?_eq_some fromQueue
    obtain ⟨label, atId, _⟩ := consistent.queued (Array.mem_of_getElem? atTop)
    exact ⟨label, atId, (labels id).trans atId⟩
  have advances := planner.advances direction step search
  generalize planner.advanceUnder direction step search = outcome at advances ⊢
  cases advances with
  | stuck empty =>
      rw [search.taking?_eq_none empty, Option.toList_none, List.append_nil, Search.tree_withTree]
      exact counted.finish true
  | @passed id seen tree popped idle =>
      obtain ⟨label, before, atId⟩ := labelled popped
      rw [search.taking?_eq_some popped atId, Search.tree_withTree]
      exact counted.take popped before (.refl tree) (Nat.zero_le _)
  | @stopped id tree label popped atId beaten =>
      obtain ⟨same, before, atIdToo⟩ := labelled popped
      obtain rfl := Option.some.inj (atIdToo.symm.trans atId)
      rw [search.taking?_eq_some popped atId, Search.tree_withTree]
      exact (counted.take popped before (.refl tree) (Nat.zero_le _)).finish true
  | @expanded id tree label popped atId unbeaten =>
      obtain ⟨same, before, atIdToo⟩ := labelled popped
      obtain rfl := Option.some.inj (atIdToo.symm.trans atId)
      have spreads := planner.expand_spreads maker direction step id same
        (search.withTree direction tree)
      rw [Search.tree_withTree] at spreads
      rw [search.taking?_eq_some popped atId, unbeaten]
      exact counted.take popped before spreads (by simp [Taking.isExpanded, Taking.arcs])

/-- Roots are planted where nothing was taken. -/
theorem planted {source target : NodeId} (counted : Counted planner 0 taken (search.tree direction))
    (maker : planner.maker.Lawful) (blank : search.Blank) (sourceWeight targetWeight : W)
    (now : Nat) :
    Counted planner 1 taken
      ((planner.planted source sourceWeight target targetWeight now search).tree direction) := by
  obtain ⟨_, empty⟩ := blank.trees direction
  have untaken := counted.visited
  rw [empty] at untaken
  obtain rfl := List.length_eq_zero_iff.mp untaken.symm
  obtain ⟨payload, finished, isPlanted⟩ := blank.planted_tree maker ⟨source, target⟩
    ⟨sourceWeight, targetWeight⟩ now direction
  rw [isPlanted]
  apply finish
  constructor
  · rfl
  · nofun
  · exact List.nodup_nil
  · exact (Nat.zero_add _).le.trans (MinQueue.size_push_le _ _ _)

end Counted

/-- The work of both directions is counted at every moment. -/
theorem Planner.Course.counted {takings : Takings W X} {makerState : S}
    (network : planner.network.Lawful) (maker : planner.maker.Lawful)
    (course : planner.Course (.fresh makerState) takings search) (side : Direction) :
    Counted planner search.seeded.toNat (takings.of side) (search.tree side) := by
  induction course with
  | start =>
      have empty : (Search.fresh makerState : Search W X S).tree side = {} := by
        cases side <;> rfl
      rw [empty]
      exact ⟨rfl, nofun, List.nodup_nil, Nat.zero_le _⟩
  | @plant past middle source target sourceWeight targetWeight now before accepted ih =>
      have unseeded := planner.unseeded_of_check accepted
      rw [unseeded] at ih
      rw [(planner.planted_frame source sourceWeight target targetWeight now middle).1]
      exact ih.planted maker (before.blank unseeded) sourceWeight targetWeight now
  | @advance past middle direction step before ih =>
      obtain ⟨events, chronicle⟩ := before.chronicle network maker
      have coherent := chronicle.coherent network maker
      have touches := planner.advanceUnder_touches direction step middle
      rw [touches.seeded, Takings.of_append]
      rcases Direction.eq_or_opposite direction side with rfl | rfl
      · rw [Takings.of_own]
        exact ih.advance maker (coherent.trees _) step
      · rw [Takings.of_opposite, List.append_nil, touches.there]
        exact ih
  | aside filter pins startedAt limit before ih => exact ih

end RouteSearch
