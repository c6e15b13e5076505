/-
This file proves that a route passes through no state twice, also where edges cost nothing. A
state in both halves of the route was in both trees before its meeting was found, and the meeting
would not have been cheaper than the one in that state.
-/

import RouteSearch.Proofs.Aside
import RouteSearch.Proofs.Schedule

namespace RouteSearch

variable {X S : Type} {planner : Planner Exact X S} {query : Query}
  {search after : Search Exact X S} {meeting : Meeting Exact}

section Branches

variable {direction : Direction} {tree : SearchTree Exact X} {trail : Trail} {id : LabelId}
  {label : Label Exact X} {key state : StateKey} {value overlap : Rat}

/-- The states along a trail, the latest one first. -/
def Planner.statesAlong (planner : Planner Exact X S) (query : Query) (direction : Direction) :
    Trail → List StateKey
  | [] => (planner.stateAt? query direction []).toList
  | arc :: before =>
      planner.settings.stateKind.key arc direction :: planner.statesAlong query direction before

theorem Planner.statesAlong_eq (atKey : planner.stateAt? query direction trail = some key) :
    planner.statesAlong query direction trail =
      key :: (planner.statesAlong query direction trail).tail := by
  cases trail with
  | nil =>
      rw [statesAlong, atKey]
      rfl
  | cons arc before =>
      rw [stateAt?, Option.some.injEq] at atKey
      rw [← atKey]
      rfl

theorem Planner.statesAlong_nodeBased (nodeBased : planner.settings.stateKind = .nodeBased)
    (trail : Trail) : planner.statesAlong query direction trail =
      trail.map (·.far) ++ [query.ends.get direction] := by
  induction trail with
  | nil =>
      rw [statesAlong, stateAt?, planner.isEdgeBased_eq_false.mpr nodeBased]
      rfl
  | cons arc before ih =>
      rw [statesAlong, ih, nodeBased]
      rfl

theorem Planner.statesAlong_edgeBased (edgeBased : planner.settings.stateKind = .edgeBased)
    (trail : Trail) : planner.statesAlong query direction trail =
      trail.map (StateKind.edgeBased.key · direction) := by
  induction trail with
  | nil =>
      rw [statesAlong, stateAt?, planner.isEdgeBased_eq_true.mpr edgeBased]
      rfl
  | cons arc before ih =>
      rw [statesAlong, ih, edgeBased]
      rfl

/-- The state was settled at the end of a branch of this length at most, for no more than the
limit. -/
def SettledWithin (planner : Planner Exact X S) (query : Query) (direction : Direction)
    (tree : SearchTree Exact X) (state : StateKey) (length : Nat) (limit : Rat) : Prop :=
  ∃ trail id label value, Branch planner query direction tree trail id label ∧
    tree.Holds id label true ∧ tree.lookup? state = some id ∧ trail.length ≤ length ∧
    label.weight = .finite value ∧ value ≤ limit

theorem SettledWithin.mono {length more : Nat} {limit higher : Rat}
    (settled : SettledWithin planner query direction tree state length limit)
    (longer : length ≤ more) (dearer : limit ≤ higher) :
    SettledWithin planner query direction tree state more higher := by
  obtain ⟨trail, id, label, value, branch, closed, found, short, isValue, atMost⟩ := settled
  exact ⟨trail, id, label, value, branch, closed, found, short.trans longer, isValue,
    atMost.trans dearer⟩

/-- The states along the branch of a settled label were settled on the way, for no more. -/
theorem Branch.settledWithin (lawful : planner.Lawful)
    (grown : Grown planner query direction tree)
    (branch : Branch planner query direction tree trail id label)
    (closed : tree.Holds id label true) (isValue : label.weight = .finite value)
    (member : state ∈ planner.statesAlong query direction trail) :
    SettledWithin planner query direction tree state trail.length value := by
  induction branch generalizing value with
  | root holds isRoot =>
      rw [Planner.statesAlong, Planner.stateAt?] at member
      cases kind : planner.isEdgeBased with
      | true => simp [kind] at member
      | false =>
          rw [kind] at member
          obtain rfl : state = query.ends.get direction := List.mem_singleton.mp member
          exact ⟨[], 0, _, value, .root holds isRoot, closed, grown.lookup_root kind, le_rfl,
            isValue, le_rfl⟩
  | @step before parent above arc id label _ branch closedAbove reaches holds indexed ih =>
      rcases List.mem_cons.mp member with rfl | earlier
      · exact ⟨_, _, _, value, .step branch closedAbove reaches holds indexed, closed, indexed,
          le_rfl, isValue, le_rfl⟩
      · obtain ⟨cost, less, isCost, isLess, rfl⟩ :=
          Exact.add_eq_finite (reaches.weight.symm.trans isValue)
        have price := lawful.pricing.price reaches.member reaches.allows.1 above.edge
        exact (ih closedAbove isLess earlier).mono (Nat.le_succ _)
          (le_add_of_nonneg_left (price.nonneg isCost))

/-- All branches to a label are of one length. -/
theorem Branch.length_eq (lawful : planner.network.Lawful) {other : Trail} {known : Label Exact X}
    (branch : Branch planner query direction tree trail id label)
    (again : Branch planner query direction tree other id known) :
    trail.length = other.length := by
  obtain ⟨older, lineage, _, nodes⟩ := branch.lineage lawful
  obtain ⟨olderAgain, lineageAgain, _, nodesAgain⟩ := again.lineage lawful
  rw [lineage.unique lineageAgain, nodesAgain] at nodes
  simpa using (congrArg List.length nodes).symm

/-- A branch passes through no state twice. -/
theorem Branch.states_nodup (lawful : planner.Lawful)
    (grown : Grown planner query direction tree)
    (branch : Branch planner query direction tree trail id label) :
    (planner.statesAlong query direction trail).Nodup := by
  induction branch with
  | root holds isRoot =>
      rw [Planner.statesAlong]
      cases planner.stateAt? query direction [] <;> simp
  | step branch closed reaches holds indexed ih =>
      refine List.nodup_cons.mpr ⟨fun member => ?_, ih⟩
      obtain ⟨value, isValue⟩ := grown.finite closed
      obtain ⟨trail, other, known, _, again, _, found, short, _⟩ :=
        branch.settledWithin lawful grown closed isValue member
      obtain rfl := Option.some.inj (found.symm.trans indexed)
      have long := again.length_eq lawful.network (.step branch closed reaches holds indexed)
      rw [long] at short
      exact Nat.not_succ_le_self _ short

/-- An overlap is not negative. -/
theorem Planner.Overlap.nonneg (price : planner.pricing.NonNegative planner.network)
    (overlaps : planner.Overlap key overlap) : 0 ≤ overlap := by
  unfold Planner.Overlap at overlaps
  split at overlaps
  · exact overlaps.ge
  · obtain ⟨node, arc, member, isOpen, _, isCost⟩ := overlaps
    exact (price member isOpen noEdge).nonneg isCost

/-- A state that a tree knows is an overlap with the other tree. -/
theorem Grown.overlaps (lawful : planner.Lawful) (grown : Grown planner query direction tree)
    (found : tree.lookup? key = some id) : ∃ overlap, planner.Overlap key overlap := by
  obtain ⟨trail, label, branch, atKey⟩ := grown.keyed found
  obtain ⟨settled, holds⟩ := branch.holds
  obtain ⟨value, isValue⟩ := grown.finite holds
  cases branch with
  | root _ _ =>
      refine ⟨0, ?_⟩
      unfold Planner.Overlap
      cases kind : planner.settings.stateKind with
      | nodeBased => rfl
      | edgeBased =>
          rw [Planner.stateAt?, planner.isEdgeBased_eq_true.mpr kind] at atKey
          cases atKey
  | step _ _ reaches _ _ =>
      rw [Planner.stateAt?, Option.some.injEq] at atKey
      rw [← atKey]
      exact (reaches.comesOver isValue).overlaps lawful.network lawful.pricing.level

/-- A label weighs as much more than the one before it as the state between them overlaps. -/
theorem Planner.Reaches.add_overlap_le (lawful : planner.Lawful) {parent : LabelId}
    {above : Label Exact X} {arc : Arc Exact}
    (reaches : planner.Reaches query direction parent above arc label)
    (isValue : label.weight = .finite value)
    (overlaps : planner.Overlap (planner.settings.stateKind.key arc direction) overlap) :
    ∃ less, above.weight = .finite less ∧ less + overlap ≤ value := by
  obtain ⟨cost, less, isCost, isLess, rfl⟩ :=
    Exact.add_eq_finite (reaches.weight.symm.trans isValue)
  refine ⟨less, isLess, ?_⟩
  suffices overlap ≤ cost by linarith
  cases kind : planner.settings.stateKind with
  | nodeBased =>
      unfold Planner.Overlap at overlaps
      rw [kind] at overlaps
      rw [show overlap = 0 from overlaps]
      exact (lawful.pricing.price reaches.member reaches.allows.1 _).nonneg isCost
  | edgeBased =>
      obtain ⟨alone, isAlone, atMost⟩ :=
        lawful.pricing.least reaches.member reaches.allows.1 isCost
      rw [kind] at overlaps
      have same := overlaps.unique lawful.network (planner.overlap_of_cost lawful.network
        lawful.pricing.level kind reaches.member reaches.allows.1 isAlone)
      exact same ▸ atMost

/-- The states before the last one of a branch were settled for as much less than its label weighs
as the last one overlaps. -/
theorem Branch.settled_before (lawful : planner.Lawful)
    (grown : Grown planner query direction tree)
    (branch : Branch planner query direction tree trail id label)
    (isValue : label.weight = .finite value)
    (atKey : planner.stateAt? query direction trail = some key)
    (overlaps : planner.Overlap key overlap)
    (member : state ∈ (planner.statesAlong query direction trail).tail) :
    ∃ length limit, SettledWithin planner query direction tree state length limit ∧
      limit + overlap ≤ value := by
  cases branch with
  | root holds isRoot =>
      rw [Planner.statesAlong, atKey] at member
      cases member
  | step branch closed reaches holds indexed =>
      rw [Planner.stateAt?, Option.some.injEq] at atKey
      obtain ⟨less, isLess, atMost⟩ := reaches.add_overlap_le lawful isValue (atKey ▸ overlaps)
      exact ⟨_, less, branch.settledWithin lawful grown closed isLess member, atMost⟩

end Branches

section Halves

variable {pending : Direction → LabelId → Arc Exact → Prop} {key state : StateKey}
  {ids : Sides LabelId} {weight : Rat} {trail there : Trail} {forward backward : Label Exact X}

/-- A state that both trees have settled later on, with labels they had before, offered a meeting
before. -/
theorem Underway.beats_shared (lawful : planner.Lawful)
    (underway : Underway planner query pending search)
    (tracks : planner.settings.tracksMeeting = true)
    (grows : ∀ side, (search.tree side).Grows (after.tree side))
    (later : ∀ side, Grown planner query side (after.tree side))
    (recent : ∀ {side id label}, (after.tree side).Holds id label true →
      ∃ settled, (search.tree side).Holds id label settled)
    {lengths : Sides Nat} {limits : Sides Rat}
    (settled : ∀ side, SettledWithin planner query side (after.tree side) state
      (lengths.get side) (limits.get side)) :
    search.Beats (limits.forward + limits.backward) := by
  have known (side : Direction) : ∃ id label value,
      (search.tree side).lookup? state = some id ∧ (search.tree side).label? id = some label ∧
      label.weight = .finite value ∧ value ≤ limits.get side := by
    obtain ⟨_, id, label, value, _, closed, found, _, isValue, atMost⟩ := settled side
    obtain ⟨_, held⟩ := recent closed
    rcases (underway.grown side).indexed held with ⟨rfl, edgeBased⟩ | ⟨key, wasFound⟩
    · exact absurd found ((later side).lookup_ne_root edgeBased state)
    · obtain rfl := (later side).injective ((grows side).lookup? wasFound) found
      exact ⟨id, label, value, wasFound, held.label?, isValue, atMost⟩
  obtain ⟨source, label, value, found, atSource, isValue, atMost⟩ := known .forward
  obtain ⟨target, opposite, far, foundThere, atTarget, isFar, atMostThere⟩ := known .backward
  obtain ⟨overlap, overlaps⟩ := (underway.grown .forward).overlaps lawful found
  have joins : Joins planner search.trees state ⟨source, target⟩ (value + far - overlap) :=
    .of_labels found foundThere atSource atTarget isValue isFar overlaps
  have positive := overlaps.nonneg lawful.pricing.price
  change value ≤ limits.forward at atMost
  change far ≤ limits.backward at atMostThere
  exact (underway.met.least tracks joins).mono (by linarith)

/-- The branches to a meeting that is cheaper than the best one before share its own state
only. -/
theorem Underway.apart (lawful : planner.Lawful)
    (underway : Underway planner query pending search)
    (tracks : planner.settings.tracksMeeting = true)
    (grows : ∀ side, (search.tree side).Grows (after.tree side))
    (later : ∀ side, Grown planner query side (after.tree side))
    (recent : ∀ {side id label}, (after.tree side).Holds id label true →
      ∃ settled, (search.tree side).Holds id label settled)
    (joins : Joins planner after.trees key ids weight) (cheaper : ¬ search.Beats weight)
    (left : Branch planner query .forward (after.tree .forward) trail ids.forward forward)
    (right : Branch planner query .backward (after.tree .backward) there ids.backward backward)
    (atKey : planner.stateAt? query .forward trail = some key)
    (atKeyThere : planner.stateAt? query .backward there = some key)
    (member : state ∈ (planner.statesAlong query .forward trail).tail) :
    state ∉ (planner.statesAlong query .backward there).tail := by
  intro memberThere
  obtain ⟨values, overlap, labels, overlaps, rfl⟩ := joins.weight
  obtain ⟨_, atForward, isSource⟩ := labels .forward
  obtain ⟨_, atBackward, isTarget⟩ := labels .backward
  obtain ⟨_, holdsForward⟩ := left.holds
  obtain ⟨_, holdsBackward⟩ := right.holds
  obtain rfl := Option.some.inj (holdsForward.label?.symm.trans atForward)
  obtain rfl := Option.some.inj (holdsBackward.label?.symm.trans atBackward)
  obtain ⟨length, limit, settled, atMost⟩ :=
    left.settled_before lawful (later .forward) isSource atKey overlaps member
  obtain ⟨lengthThere, limitThere, settledThere, atMostThere⟩ :=
    right.settled_before lawful (later .backward) isTarget atKeyThere overlaps memberThere
  have both (side : Direction) : SettledWithin planner query side (after.tree side) state
      ((Sides.mk length lengthThere).get side) ((Sides.mk limit limitThere).get side) := by
    cases side with
    | forward => exact settled
    | backward => exact settledThere
  have beats := underway.beats_shared lawful tracks grows later recent both
  have positive := overlaps.nonneg lawful.pricing.price
  change limit + overlap ≤ values.forward at atMost
  change limitThere + overlap ≤ values.backward at atMostThere
  dsimp only at beats
  exact cheaper (beats.mono (by linarith))

/-- The states that a walk from the source passes through: its nodes, or its edges with their sense
of travel. -/
def Walk.states (kind : StateKind) (source : NodeId) (walk : Walk Exact) : List StateKey :=
  match kind with
  | .nodeBased => source :: walk.map (·.far)
  | .edgeBased => walk.map (StateKind.edgeBased.key · .forward)

/-- A walk over trails that end in one state passes through the states of both. -/
theorem Planner.states_walkOver (lawful : planner.network.Lawful) {node : NodeId}
    (leads : Trail.Leads planner.network query .backward there node) :
    (planner.walkOver trail there).states planner.settings.stateKind query.ends.forward =
      (planner.statesAlong query .forward trail).reverse ++
        (planner.statesAlong query .backward there).tail := by
  cases kind : planner.settings.stateKind with
  | nodeBased =>
      obtain ⟨connects, _⟩ := Trail.connects_backward lawful (there.map Arc.flip) node
        ((Trail.map_flip_flip there).symm ▸ leads)
      have nodes := Walk.nodes_eq lawful connects
      have nears : (there.map Arc.flip).map (·.near) = there.map (·.far) := by
        rw [List.map_map]
        rfl
      rw [nears] at nodes
      rw [planner.statesAlong_nodeBased kind, planner.statesAlong_nodeBased kind, Walk.states,
        walkOver, kind]
      rw [show query.ends.get .backward = query.ends.backward from rfl, nodes]
      simp [Sides.get]
  | edgeBased =>
      rw [planner.statesAlong_edgeBased kind, planner.statesAlong_edgeBased kind, Walk.states,
        walkOver, kind]
      simp [StateKind.key_flip, Direction.opposite, Function.comp_def]

/-- A meeting carries a walk that passes through no state twice. -/
def CarriesOnce (planner : Planner Exact X S) (query : Query) (search : Search Exact X S)
    (meeting : Meeting Exact) : Prop :=
  ∃ before rest, Carries planner query search meeting before rest ∧
    (Walk.states planner.settings.stateKind query.ends.forward (before.reverse ++ rest)).Nodup

/-- A meeting in the state of a join carries a walk that repeats no state, if the branches to it
share its own state only. -/
theorem Joins.carriesOnce (measures : planner.Measures query)
    (grown : ∀ side, Grown planner query side (search.tree side))
    (suited : planner.isEdgeBased = true ∨ ∀ side, query.pins.get side = none)
    (joins : Joins planner search.trees key ids weight)
    (isWeight : meeting.weight = .finite weight)
    (meetsAt : MeetsAt planner search.trees ids meeting.ends)
    (left : Branch planner query .forward (search.tree .forward) trail ids.forward forward)
    (right : Branch planner query .backward (search.tree .backward) there ids.backward backward)
    (atKey : planner.stateAt? query .forward trail = some key)
    (atKeyThere : planner.stateAt? query .backward there = some key)
    (apart : ∀ state ∈ (planner.statesAlong query .forward trail).tail,
      state ∉ (planner.statesAlong query .backward there).tail) :
    CarriesOnce planner query search meeting := by
  obtain ⟨before, rest, carries, isWalk⟩ :=
    joins.carries measures grown suited isWeight meetsAt left right atKey atKeyThere
  have distinct := left.states_nodup measures.toLawful (grown .forward)
  have distinctThere := right.states_nodup measures.toLawful (grown .backward)
  rw [planner.statesAlong_eq atKeyThere, List.nodup_cons] at distinctThere
  refine ⟨before, rest, carries, ?_⟩
  rw [isWalk, planner.states_walkOver measures.network (right.leads measures.network),
    List.nodup_append]
  refine ⟨List.nodup_reverse.mpr distinct, distinctThere.2, fun state member other there same => ?_⟩
  subst same
  rw [List.mem_reverse, planner.statesAlong_eq atKey] at member
  rcases List.mem_cons.mp member with rfl | before
  · exact distinctThere.1 there
  · exact apart state before there

/-- The walk of an immediate meeting is empty. -/
theorem Immediate.carriesOnce (immediate : Immediate planner query meeting)
    (grown : ∀ side, Grown planner query side (search.tree side)) :
    CarriesOnce planner query search meeting := by
  refine ⟨[], [], immediate.carries grown, ?_⟩
  cases planner.settings.stateKind with
  | nodeBased => exact List.nodup_singleton _
  | edgeBased => exact List.nodup_nil

/-- The walk of a meeting stays as long as the labels at its ends do. -/
theorem CarriesOnce.mono (once : CarriesOnce planner query search meeting)
    (grows : ∀ side, (search.tree side).Grows (after.tree side))
    (labels : ∀ side, (after.tree side).label? (meeting.ends.get side) =
      (search.tree side).label? (meeting.ends.get side)) :
    CarriesOnce planner query after meeting := by
  have kept {side : Direction} {trail : Trail} {label : Label Exact X}
      (branch : Branch planner query side (search.tree side) trail (meeting.ends.get side) label) :
      Branch planner query side (after.tree side) trail (meeting.ends.get side) label := by
    obtain ⟨_, holds⟩ := branch.holds
    obtain ⟨_, later⟩ := SearchTree.holds_of_label? ((labels side).trans holds.label?)
    exact branch.mono (grows side).lookup? (grows side).settled later
  obtain ⟨before, rest, ⟨⟨label, left⟩, ⟨opposite, right⟩, admissible, weight⟩, distinct⟩ := once
  exact ⟨before, rest, ⟨⟨label, kept left⟩, ⟨opposite, kept right⟩, admissible, weight⟩, distinct⟩

end Halves

/-- The best meeting carries a walk that passes through no state twice. -/
def Unrepeating (planner : Planner Exact X S) (query : Query) (search : Search Exact X S) : Prop :=
  ∀ meeting, search.best = some meeting → CarriesOnce planner query search meeting

namespace Unrepeating

variable {direction : Direction}

/-- A way through the roots alone repeats no state. -/
theorem rooted (measures : planner.Measures query) (rooted : Rooted planner query search)
    (suited : planner.isEdgeBased = true ∨ ∀ side, query.pins.get side = none) :
    Unrepeating planner query search := by
  intro meeting isBest
  have grown := rooted.underway.grown
  rcases rooted.underway.met.best isBest with
    immediate | ⟨_, key, ids, weight, joins, isWeight, meetsAt⟩
  · exact immediate.carriesOnce grown
  obtain ⟨trail, forward, left, atKey⟩ := (grown .forward).keyed (joins.found .forward)
  obtain ⟨there, backward, right, atKeyThere⟩ := (grown .backward).keyed (joins.found .backward)
  apply joins.carriesOnce measures grown suited isWeight meetsAt left right atKey atKeyThere
  intro state member
  obtain ⟨_, holds⟩ := left.holds
  have isRoot := left.isRoot_eq
  rw [Label.isRoot, ((rooted.planted .forward).isRoot holds).parent] at isRoot
  obtain rfl := List.isEmpty_iff.mp isRoot.symm
  rw [Planner.statesAlong, atKey] at member
  cases member

/-- A meeting that a search goes on with repeats no state: it is the best one before or cheaper. -/
theorem later (measures : planner.Measures query)
    (suited : planner.isEdgeBased = true ∨ ∀ side, query.pins.get side = none)
    (underway : Underway planner query noArc search) (later : Underway planner query noArc after)
    (extends_ : search.Extends after)
    (recent : ∀ {side id label}, (after.tree side).Holds id label true →
      ∃ settled, (search.tree side).Holds id label settled)
    (unrepeating : Unrepeating planner query search) : Unrepeating planner query after := by
  intro meeting isBest
  rcases extends_.improves with ⟨sameBest, labels⟩ | ⟨value, isValue, cheaper⟩
  · have wasBest := sameBest.symm.trans isBest
    exact (unrepeating meeting wasBest).mono extends_.grows (labels meeting wasBest)
  rcases later.met.best isBest with
    immediate | ⟨tracks, key, ids, weight, joins, isWeight, meetsAt⟩
  · exact immediate.carriesOnce later.grown
  obtain ⟨trail, forward, left, atKey⟩ := (later.grown .forward).keyed (joins.found .forward)
  obtain ⟨there, backward, right, atKeyThere⟩ :=
    (later.grown .backward).keyed (joins.found .backward)
  have unbeaten : ¬ search.Beats weight := by
    rintro ⟨old, atMost, isOld⟩
    rw [Search.bestWeight_of_best isBest, isWeight, Exact.finite.injEq] at isValue
    exact absurd (cheaper old isOld) (not_lt.mpr (isValue ▸ atMost))
  exact joins.carriesOnce measures later.grown suited isWeight meetsAt left right atKey
    atKeyThere fun state member => underway.apart measures.toLawful tracks extends_.grows
      later.grown recent joins unbeaten left right atKey atKeyThere member

/-- A search that looks from its roots repeats no state. -/
theorem expandRoots (measures : planner.Measures query) (rooted : Rooted planner query search)
    (suited : planner.isEdgeBased = true ∨ ∀ side, query.pins.get side = none) :
    Unrepeating planner query
      (planner.expandRoot .backward (planner.expandRoot .forward search)) := by
  have lawful := measures.toLawful
  obtain ⟨first, extends_, _, _, steps⟩ :=
    rooted.underway.expandRoot lawful (rooted.planted .forward) rooted.pins
  have plantedThere : Planted planner query .backward
      ((planner.expandRoot .forward search).tree .backward) :=
    steps.there.symm ▸ rooted.planted .backward
  obtain ⟨second, extendsAgain, _, _, stepsThere⟩ :=
    first.expandRoot lawful plantedThere (steps.pins.trans rooted.pins)
  exact later measures suited first second extendsAgain stepsThere.recent
    (later measures suited rooted.underway first extends_ steps.recent
      (.rooted measures rooted suited))

/-- A query that is let through starts without repetition. -/
theorem seed (measures : planner.Measures query) (unused : Unused query search)
    (weights : ∀ side, 0 ≤ query.weights.get side)
    (suited : planner.isEdgeBased = true ∨ ∀ side, query.pins.get side = none) (now : Nat) :
    Unrepeating planner query (planner.seed query.ends.forward (.finite query.weights.forward)
      query.ends.backward (.finite query.weights.backward) now search) := by
  obtain ⟨roots, begins, isBegun | ⟨isBegun, _⟩⟩ := unused.rooted measures.maker weights now
  · rw [isBegun]
    exact .expandRoots measures begins suited
  · rw [isBegun]
    exact .rooted measures begins suited

theorem advance (measures : planner.Measures query) (started : Started planner query search)
    (unrepeating : Unrepeating planner query search) (direction : Direction) :
    Unrepeating planner query (planner.advance direction search).2 := by
  obtain ⟨advanced, extends_, steps⟩ := started.advance measures.toLawful direction
  exact unrepeating.later measures started.suited started.underway advanced.underway extends_
    steps.recent

theorem run (measures : planner.Measures query) (started : Started planner query search)
    (unrepeating : Unrepeating planner query search) (clock : Clock) :
    Unrepeating planner query (planner.run clock search) := by
  have kept := planner.run_keeps
    (P := fun after => Started planner query after ∧ Unrepeating planner query after)
    ?_ ?_ clock ⟨started, unrepeating⟩
  · exact kept.2
  · rintro after startedAt limit ⟨going, unrepeating⟩
    obtain ⟨timed, _⟩ := going.congr { after with
      startedAt := startedAt
      limit := limit } rfl rfl rfl
    exact ⟨timed, fun meeting isBest =>
      (unrepeating meeting isBest).mono (fun _ => .refl _) fun _ => rfl⟩
  · rintro after direction ⟨going, unrepeating⟩
    exact ⟨(going.advance measures.toLawful direction).1,
      unrepeating.advance measures going direction⟩

/-- No call that goes on with a query makes its best meeting repeat a state. -/
theorem performAll (measures : planner.Measures query) (started : Started planner query search)
    (unrepeating : Unrepeating planner query search) (clock : Clock) {calls : List (Call Exact)}
    (goesOn : ∀ call ∈ calls, call.GoesOn) :
    Unrepeating planner query (planner.performAll clock calls search).2 := by
  induction calls generalizing search with
  | nil => exact unrepeating
  | cons call calls ih =>
      have rest := fun other member => goesOn other (List.mem_cons_of_mem call member)
      cases goesOn call List.mem_cons_self with
      | run =>
          exact ih (started.run measures.toLawful clock).1
            (unrepeating.run measures started clock) rest
      | advance direction =>
          exact ih (started.advance measures.toLawful direction).1
            (unrepeating.advance measures started direction) rest
      | result => exact ih started unrepeating rest

end Unrepeating

section Routes

variable {list : EdgeList Exact} {route : Route Exact} {source target : NodeId}
  {begun : Search Exact X S}

/-- A route through nodes passes through none of them twice. A route whose states are edges leads
along the walk that the branches of the best meeting make up, and this walk takes no edge twice in
one sense. -/
structure Route.Unrepeated (route : Route Exact) (planner : Planner Exact X S) (query : Query)
    (search : Search Exact X S) : Prop where
  nodes : planner.settings.stateKind = .nodeBased → route.nodes.Nodup
  edges : planner.settings.stateKind = .edgeBased → ∃ meeting before rest,
    search.best = some meeting ∧ Carries planner query search meeting before rest ∧
    route.Follows query.ends.forward (before.reverse ++ rest) ∧
    ((before.reverse ++ rest).map fun arc => (arc.edge, arc.reversed)).Nodup

/-- The route through a meeting repeats no state if the meeting does not. -/
theorem Unrepeating.unrepeated (measures : planner.Measures query)
    (unrepeating : Unrepeating planner query search)
    (found : planner.result search = .ok (some route)) :
    route.Unrepeated planner query search := by
  obtain ⟨meeting, isBest, _, between⟩ := planner.result_eq_some found
  obtain ⟨before, rest, carries, distinct⟩ := unrepeating meeting isBest
  obtain ⟨other, follows, _, read⟩ := carries.route measures.network
  rw [read search (.refl search) fun _ => rfl] at between
  cases between
  constructor
  · intro nodeBased
    rw [nodeBased] at distinct
    rw [follows.nodes]
    exact distinct
  · intro edgeBased
    refine ⟨meeting, before, rest, isBest, carries, follows, ?_⟩
    rw [edgeBased] at distinct
    apply List.Nodup.of_map fun travel : EdgeId × Bool => 2 * travel.1 + travel.2.toNat
    simpa [Walk.states, StateKind.key, Direction.isBackward, Function.comp_def] using distinct

/-- A start that is let through starts without repetition. -/
theorem Search.IsUnused.unrepeating (unused : search.IsUnused) {weights : Sides Rat}
    (measures : planner.Measures ⟨⟨source, target⟩, weights, search.pins, search.filter⟩)
    (nonneg : ∀ side, 0 ≤ weights.get side) {now : Nat}
    (accepted : planner.start source (.finite weights.forward) target (.finite weights.backward)
      now search = .ok begun) :
    Started planner ⟨⟨source, target⟩, weights, search.pins, search.filter⟩ begun ∧
      Unrepeating planner ⟨⟨source, target⟩, weights, search.pins, search.filter⟩ begun := by
  refine ⟨unused.startWeighted measures.toLawful nonneg accepted, ?_⟩
  obtain ⟨rfl, checked⟩ := planner.start_eq_ok accepted
  have begins : Unused ⟨⟨source, target⟩, weights, search.pins, search.filter⟩ search :=
    ⟨unused.trees, unused.best, rfl, rfl⟩
  exact .seed measures begins nonneg (planner.suited_of_check checked) now

/-- No route repeats a state, whatever its edges cost and whatever limits its search: neither one
that answers a query at once, nor one that is read after a start with any weights at the roots and
any calls that go on with it. -/
theorem route_unrepeated (serves : planner.Serves list) (unused : search.IsUnused)
    (unoriented : ArcFilter.Unoriented list.pack.network search.filter) :
    (∀ source sourceEdge target targetEdge clock route,
      (planner.route source sourceEdge target targetEdge clock search).1 = .ok (some route) →
      route.Unrepeated planner (.between source target ⟨sourceEdge, targetEdge⟩ search.filter)
        (planner.route source sourceEdge target targetEdge clock search).2) ∧
    ∀ source target (weights : Sides Rat) now begun clock calls route,
      (∀ side, 0 ≤ weights.get side) →
      planner.start source (.finite weights.forward) target (.finite weights.backward) now search =
        .ok begun →
      (∀ call ∈ calls, call.GoesOn) →
      planner.result (planner.performAll clock calls begun).2 = .ok (some route) →
      route.Unrepeated planner ⟨⟨source, target⟩, weights, search.pins, search.filter⟩
        (planner.performAll clock calls begun).2 := by
  have measures (query : Query) (filter : query.filter = search.filter) : planner.Measures query :=
    serves.measures (serves.network ▸ filter ▸ unoriented)
  constructor
  · intro source sourceEdge target targetEdge clock route found
    have pinned : Search.IsUnused (search.withPins ⟨sourceEdge, targetEdge⟩) :=
      ⟨unused.trees, unused.best, unused.seeded⟩
    have noWeight (side : Direction) : 0 ≤ (Sides.both (0 : Rat)).get side := by
      rw [Sides.get_both]
    rw [planner.route_eq unused.seeded] at found ⊢
    unfold Planner.routeWeighted at found ⊢
    cases accepted : planner.start source Weight.zero target Weight.zero (clock 0)
        (search.withPins ⟨sourceEdge, targetEdge⟩) with
    | error fault =>
        rw [accepted] at found
        cases found
    | ok begun =>
        rw [accepted] at found
        obtain ⟨started, unrepeating⟩ := pinned.unrepeating (measures _ rfl) noWeight accepted
        exact (unrepeating.run (measures _ rfl) started _).unrepeated (measures _ rfl) found
  · intro source target weights now begun clock calls route nonneg accepted goesOn found
    obtain ⟨started, unrepeating⟩ := unused.unrepeating (measures _ rfl) nonneg accepted
    exact (unrepeating.performAll (measures _ rfl) started clock goesOn).unrepeated (measures _ rfl)
      found

/-- A ring of streets of no length. -/
def EdgeList.idleRing : EdgeList Exact where
  nodeCount := 3
  edges := #[.twoWay 0 1 (.finite 0), .twoWay 1 2 (.finite 0), .twoWay 2 0 (.finite 0)]
  fits := by
    intro record member
    simp only [List.mem_toArray, List.mem_cons, List.not_mem_nil, or_false] at member
    rcases member with rfl | rfl | rfl
    all_goals exact ⟨by decide, by decide, by decide⟩

/-- A planner over the idle ring, which looks for the shortest way. -/
def Planner.overRing (kind : StateKind) : Planner Exact Unit Unit where
  network := EdgeList.idleRing.pack.network
  pricing := CostModel.shortest.pricing
  settings := { stateKind := kind }
  maker := .plain

theorem Planner.overRing_serves (kind : StateKind) :
    (Planner.overRing kind).Serves EdgeList.idleRing := by
  have nonNegative : CostModel.shortest.NonNegative EdgeList.idleRing.pack.network := trivial
  cases kind with
  | nodeBased => exact nonNegative.serves_nodes rfl rfl LabelMaker.plain_lawful rfl (.inl rfl)
  | edgeBased => exact nonNegative.serves_edges rfl rfl LabelMaker.plain_lawful rfl

/-- A search that leaves its source over the first street of the ring and arrives over the second
one. -/
def Search.pinnedRing : Search Exact Unit Unit :=
  ((Search.fresh ()).withPin .forward (some 0)).withPin .backward (some 1)

theorem route_unrepeated_ring :
    (∃ route, ((Planner.overRing .nodeBased).route 0 none 2 none (fun _ => 0) (.fresh ())).1 =
        .ok (some route) ∧
      route.Unrepeated (Planner.overRing .nodeBased) (.between 0 2 ⟨none, none⟩ none)
        ((Planner.overRing .nodeBased).route 0 none 2 none (fun _ => 0) (.fresh ())).2) ∧
    ∃ begun route, (Planner.overRing .edgeBased).start 0 (.finite 3) 1 (.finite 0) 0 .pinnedRing =
        .ok begun ∧
      (Planner.overRing .edgeBased).result ((Planner.overRing .edgeBased).performAll (fun _ => 0)
        [.advance .backward, .run] begun).2 = .ok (some route) ∧
      route.Unrepeated (Planner.overRing .edgeBased) ⟨⟨0, 1⟩, ⟨3, 0⟩, Search.pinnedRing.pins, none⟩
        ((Planner.overRing .edgeBased).performAll (fun _ => 0) [.advance .backward, .run]
          begun).2 := by
  constructor
  · have found : ((Planner.overRing .nodeBased).route 0 none 2 none (fun _ => 0) (.fresh ())).1 =
        .ok (some ⟨.finite 0, .finite 0, [0, 2], [2]⟩) := by
      cbv
    exact ⟨_, found, (route_unrepeated (Planner.overRing_serves .nodeBased)
      (Search.fresh_isUnused () none) fun _ _ _ => rfl).1 _ _ _ _ _ _ found⟩
  · have unused : Search.pinnedRing.IsUnused := ⟨rfl, rfl, rfl⟩
    have accepted : (Planner.overRing .edgeBased).start 0 (.finite 3) 1 (.finite 0) 0 .pinnedRing =
        .ok ((Planner.overRing .edgeBased).seed 0 (.finite 3) 1 (.finite 0) 0 .pinnedRing) := rfl
    have found : (Planner.overRing .edgeBased).result ((Planner.overRing .edgeBased).performAll
        (fun _ => 0) [.advance .backward, .run] ((Planner.overRing .edgeBased).seed 0 (.finite 3) 1
          (.finite 0) 0 .pinnedRing)).2 =
        .ok (some ⟨.finite 3, .finite 0, [0, 1, 2, 1], [0, 1, 1]⟩) := by
      cbv
    have nonneg (side : Direction) : 0 ≤ (Sides.mk (3 : Rat) 0).get side := by
      cases side with
      | forward => exact zero_le_three
      | backward => exact le_rfl
    have goesOn : ∀ call ∈ [Call.advance .backward, .run], call.GoesOn := by
      simp [Call.GoesOn.advance, Call.GoesOn.run]
    exact ⟨_, _, accepted, found, (route_unrepeated (Planner.overRing_serves .edgeBased) unused
      fun _ _ _ => rfl).2 _ _ _ _ _ _ _ _ nonneg accepted goesOn found⟩

end Routes

end RouteSearch
