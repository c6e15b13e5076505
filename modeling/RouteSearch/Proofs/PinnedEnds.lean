/-
This file says what the pins of an edge-based search hold a route to, in a network whose edges may
stand for chains of original edges. Both pins are compared with the original edge that an arc
begins over in the sense of travel, also the one at the target.
-/

import RouteSearch.Proofs.Exploration
import RouteSearch.Proofs.Lineage

namespace RouteSearch

variable {X S : Type} {planner : Planner Exact X S} {query : Query} {search : Search Exact X S}
  {direction : Direction}

/-- The first arc of the walk begins over the first pin, and its last arc begins over the second,
where there is one. -/
def Walk.BeginsOver {W : Type} (pins : Sides (Option EdgeId)) (walk : Walk W) : Prop :=
  (∀ edge ∈ pins.forward, walk.head?.map (·.firstEdge) = some edge) ∧
    (∀ edge ∈ pins.backward, walk.getLast?.map (·.firstEdge) = some edge)

section Bridge

variable {trees others : Sides (SearchTree Exact X)} {ends : Sides LabelId}
  {above label : Label Exact X} {arc : Arc Exact} {id parent : LabelId}

/-- The way through the ends of a meeting leads from a settled label of one direction over an arc
that this direction may take there. The other tree knows the state of the arc. -/
structure Bridge (planner : Planner Exact X S) (query : Query)
    (trees : Sides (SearchTree Exact X)) (ends : Sides LabelId) (direction : Direction)
    (above : Label Exact X) (arc : Arc Exact) : Prop where
  closed : (trees.get direction).Holds (ends.get direction) above true
  mayTake : planner.MayTake query direction above arc
  there : (trees.get direction.opposite).lookup? (planner.settings.stateKind.key arc direction) =
    some (ends.get direction.opposite)

theorem Bridge.mono (bridge : Bridge planner query trees ends direction above arc)
    (grows : ∀ side, (trees.get side).Grows (others.get side)) :
    Bridge planner query others ends direction above arc :=
  ⟨(grows _).settled bridge.closed, bridge.mayTake, (grows _).lookup? bridge.there⟩

/-- The best meeting has a bridge, unless the search was over at once. -/
def Bridged (planner : Planner Exact X S) (query : Query) (search : Search Exact X S) : Prop :=
  ∀ meeting, search.best = some meeting → Immediate planner query meeting ∨
    ∃ direction above arc, Bridge planner query search.trees meeting.ends direction above arc

/-- A meeting over an arc steps back to the parent of the label just written. -/
theorem Planner.meet_best {mid : Search Exact X S} (arc : Arc Exact)
    (edgeBased : planner.settings.stateKind = .edgeBased)
    (atId : (mid.tree direction).label? id = some label) (isParent : label.parent = some parent) :
    (planner.meet direction arc id mid).best = mid.best ∨ ∃ other weight,
      (mid.tree direction.opposite).lookup? (planner.settings.stateKind.key arc direction) =
        some other ∧
      (planner.meet direction arc id mid).best =
        some ⟨.oriented direction parent other, weight⟩ := by
  rcases planner.meet_proposes direction arc id mid with
    same | ⟨here, other, written, _, weight, found, atWritten, _, isBest, kinds⟩
  · exact .inl same
  · rw [atId] at atWritten
    cases atWritten
    rcases kinds with ⟨nodeBased, _⟩ | ⟨_, isHere, _⟩
    · rw [edgeBased] at nodeBased
      cases nodeBased
    · rw [isParent] at isHere
      cases isHere
      exact .inr ⟨other, weight, found, isBest⟩

/-- The best meeting has stayed, or it was replaced by one over an arc that is admitted from the
label. -/
def Planner.MeetsOver (planner : Planner Exact X S) (direction : Direction)
    (step : Option (ArcFilter Exact)) (id : LabelId) (label : Label Exact X)
    (search after : Search Exact X S) : Prop :=
  after.best = search.best ∨ ∃ arc ∈ planner.network.arcs label.node, ∃ other weight,
    planner.admits search step label.edge arc = true ∧ arc.isOpen direction = true ∧
    (search.tree direction.opposite).lookup? (planner.settings.stateKind.key arc direction) =
      some other ∧
    after.best = some ⟨.oriented direction id other, weight⟩

/-- Looking over an arc writes down a label at most, and looks for a meeting over that arc. -/
theorem Planner.MeetsOver.relax (edgeBased : planner.settings.stateKind = .edgeBased)
    (maker : planner.maker.Lawful) {step : Option (ArcFilter Exact)} {middle : Search Exact X S}
    (touches : search.Touches direction middle) (member : arc ∈ planner.network.arcs label.node)
    (meets : planner.MeetsOver direction step id label search middle) :
    planner.MeetsOver direction step id label search
      (planner.relax direction step id label middle arc) := by
  rcases planner.relax_eq direction step id label middle arc with
    same | ⟨written, mid, admitted, bounded, recorded, relaxed⟩
  · rwa [same]
  obtain ⟨isOpen, _⟩ := planner.reachWeight_open bounded
  obtain ⟨made, tree, makerState, updates, rfl, writes, _, _, isParent, _⟩ :=
    planner.record_eq_some maker recorded
  rw [relaxed]
  split
  · have atWritten : (Search.tree { middle.withTree direction tree with
        makerState := makerState
        updates := updates } direction).label? written = some made := by
      change ((middle.trees.set direction tree).get direction).label? written = some made
      rw [Sides.get_set]
      exact writes.label?
    rcases planner.meet_best arc edgeBased atWritten isParent with
      same | ⟨other, weight, found, isBest⟩
    · unfold MeetsOver
      rwa [same]
    · refine .inr ⟨arc, member, other, weight, ?_, isOpen, ?_, isBest⟩
      · unfold admits at admitted ⊢
        rwa [← touches.filter]
      · rw [← touches.there, ← found]
        exact congrArg (SearchTree.lookup? · _) (Sides.get_opposite_set _ _ _).symm
  · exact meets

theorem Planner.expand_meetsOver (edgeBased : planner.settings.stateKind = .edgeBased)
    (maker : planner.maker.Lawful) (step : Option (ArcFilter Exact)) (id : LabelId)
    (label : Label Exact X) (search : Search Exact X S) :
    planner.MeetsOver direction step id label search
      (planner.expand direction step id label search) := by
  have kept : search.Touches direction (planner.expand direction step id label search) ∧
      planner.MeetsOver direction step id label search
        (planner.expand direction step id label search) := by
    apply Planner.expand_keeps (P := fun after => search.Touches direction after ∧
      planner.MeetsOver direction step id label search after)
    · rintro middle arc member ⟨touches, meets⟩
      exact ⟨touches.trans (planner.relax_touches direction step id label middle arc),
        meets.relax edgeBased maker touches member⟩
    · exact ⟨.refl direction search, .inl rfl⟩
  exact kept.2

end Bridge

section Advance

variable {step : Option (ArcFilter Exact)}

/-- A step of a direction keeps the bridge of the best meeting, or takes a meeting with a bridge
from the label that it settles. -/
theorem Bridged.advance (edgeBased : planner.settings.stateKind = .edgeBased)
    (network : planner.network.Lawful)
    (nonNegative : planner.pricing.NonNegative planner.network) (maker : planner.maker.Lawful)
    {root : Label Exact X} {past : List (Taking Exact X)}
    (explores : Explores planner query direction root past search)
    (fits : ∀ id label, (search.tree direction).Holds id label false →
      StepFits query direction step label)
    (bridged : Bridged planner query search) :
    Bridged planner query (planner.advanceUnder direction step search).2 := by
  obtain ⟨bound, ordered⟩ := explores.explored.grown.ordered
  have touches := planner.advanceUnder_touches direction step search
  have growsHere := (explores.explored.advance network nonNegative maker explores.filter fits).2
  have next := (explores.advance network nonNegative maker fits).disciplined
  have proceeds := ordered.proceeds planner step
  generalize planner.advanceUnder direction step search = outcome,
    search.taking? direction = taking at *
  have kept (sameBest : outcome.2.best = search.best) : Bridged planner query outcome.2 := by
    intro meeting isBest
    refine (bridged meeting (sameBest.symm.trans isBest)).imp_right ?_
    rintro ⟨side, above, arc, bridge⟩
    refine ⟨side, above, arc, bridge.mono fun other => ?_⟩
    rcases Direction.eq_or_opposite direction other with rfl | rfl
    · exact growsHere
    · rw [show outcome.2.trees.get direction.opposite = _ from touches.there]
      exact .refl _
  cases proceeds with
  | stuck empty => exact kept rfl
  | stopped takes isValue dearer orderedAfter beaten => exact kept rfl
  | @expanded id label tree _ takes isValue dearer orderedAfter unbeaten =>
      rcases planner.expand_meetsOver edgeBased maker step id label
        (search.withTree direction tree) with
        same | ⟨arc, member, other, weight, admitted, isOpen, found, isBest⟩
      · exact kept same
      · intro meeting isMeeting
        obtain rfl := Option.some.inj (isBest.symm.trans isMeeting)
        have closed := next.settled.mpr ⟨_, List.mem_concat_self, rfl, rfl⟩
        refine .inr ⟨direction, label, arc, ?_, ?_, ?_⟩
        · rw [Sides.get_oriented]
          exact closed
        · exact (planner.admits_iff explores.filter (fits id label takes.taken) member).mp
            ⟨admitted, isOpen⟩
        · rw [Sides.get_opposite_oriented, ← found, Search.tree_opposite_withTree]
          exact congrArg (SearchTree.lookup? · _) touches.there

/-- What holds of an edge-based query while it is advanced: both directions explore, their roots
were looked from under their pins, and the best meeting has a bridge. -/
structure Pursued (planner : Planner Exact X S) (query : Query) (search : Search Exact X S) :
    Prop where
  explores : ∀ side, ∃ root past, Explores planner query side root past search ∧
    (past ≠ [] ∨ query.pins.get side = none)
  bridged : Bridged planner query search

theorem Pursued.advance (edgeBased : planner.settings.stateKind = .edgeBased)
    (network : planner.network.Lawful)
    (nonNegative : planner.pricing.NonNegative planner.network) (maker : planner.maker.Lawful)
    (pursued : Pursued planner query search) (direction : Direction) :
    Pursued planner query (planner.advance direction search).2 := by
  obtain ⟨root, past, explores, ready⟩ := pursued.explores direction
  refine ⟨fun side => ?_, pursued.bridged.advance edgeBased network nonNegative maker explores
    fun _ _ => explores.fits ready⟩
  rcases Direction.eq_or_opposite direction side with rfl | rfl
  · exact ⟨root, _, explores.onward network nonNegative maker ready⟩
  · obtain ⟨rootThere, pastThere, there, readyThere⟩ := pursued.explores direction.opposite
    refine ⟨rootThere, pastThere, ?_, readyThere⟩
    have kept := there.elsewhere none
    rwa [Direction.opposite_opposite] at kept

/-- The roots of a query have not met, or they are the answer. -/
theorem Search.Blank.bridged (blank : search.Blank)
    (edgeBased : planner.settings.stateKind = .edgeBased) (ends : Sides NodeId)
    (weights : Sides Rat) (now : Nat) :
    Bridged planner ⟨ends, weights, search.pins, search.filter⟩
      (planner.planted ends.forward (.finite weights.forward) ends.backward
        (.finite weights.backward) now search) := by
  intro meeting isBest
  rw [blank.planted_best, edgeBased] at isBest
  dsimp only at isBest
  split at isBest
  · rename_i sameEnds
    split at isBest
    · cases isBest
    · rename_i unpinned
      cases isBest
      exact .inl ⟨planner.isEdgeBased_eq_true.mpr edgeBased, sameEnds,
        Search.isPinned_eq_false.mp (Bool.eq_false_iff.mpr unpinned), rfl, rfl⟩
  · cases isBest

/-- A query that was started looks from its roots under their pins. -/
theorem Search.Blank.pursued (blank : search.Blank)
    (edgeBased : planner.settings.stateKind = .edgeBased) (network : planner.network.Lawful)
    (nonNegative : planner.pricing.NonNegative planner.network) (maker : planner.maker.Lawful)
    (ends : Sides NodeId) (weights : Sides Rat) (now : Nat) :
    Pursued planner ⟨ends, weights, search.pins, search.filter⟩
      (planner.seed ends.forward (.finite weights.forward) ends.backward
        (.finite weights.backward) now search) := by
  obtain ⟨source, forward⟩ := blank.explores maker ends weights now .forward
  obtain ⟨target, backward⟩ := blank.explores maker ends weights now .backward
  have plantedForward := blank.planted maker ends weights now .forward
  have plantedBackward := blank.planted maker ends weights now .backward
  have bridged := blank.bridged edgeBased ends weights now
  rw [planner.seed_eq_follow]
  generalize planner.planted ends.forward _ ends.backward _ now search = planted at *
  unfold Planner.rootSteps
  split
  · rename_i immediate
    have unpinned : search.isPinned = false := by simp_all
    have none := Search.isPinned_eq_false.mp unpinned
    refine ⟨fun side => ?_, bridged⟩
    cases side with
    | forward => exact ⟨source, [], forward, .inr (none .forward)⟩
    | backward => exact ⟨target, [], backward, .inr (none .backward)⟩
  · obtain ⟨first, taken⟩ := forward.first network nonNegative maker plantedForward
    have fitsFirst (id : LabelId) (label : Label Exact X)
        (holds : (planted.tree .forward).Holds id label false) :=
      (plantedForward.isRoot holds).fits
    have bridgedFirst := bridged.advance edgeBased network nonNegative maker forward fitsFirst
    have waiting := backward.elsewhere
      ((search.pins.get .forward).map (ArcFilter.pinned · .forward))
    have there := (planner.advanceUnder_touches .forward
      ((search.pins.get .forward).map (ArcFilter.pinned · .forward)) planted).there
    have plantedThere := there.symm ▸ plantedBackward
    obtain ⟨second, takenThere⟩ := waiting.first network nonNegative maker plantedThere
    refine ⟨fun side => ?_, ?_⟩
    · cases side with
      | forward => exact ⟨source, _, first.elsewhere _, .inl taken⟩
      | backward => exact ⟨target, _, second, .inl takenThere⟩
    · exact bridgedFirst.advance edgeBased network nonNegative maker waiting
        fun id label holds => (plantedThere.isRoot holds).fits

end Advance

section Walk

variable {trees : Sides (SearchTree Exact X)} {ends : Sides LabelId} {above : Label Exact X}
  {arc : Arc Exact}

/-- An arc that may be taken from a label prolongs the trail to it. -/
theorem Branch.leads_on {tree : SearchTree Exact X} {trail : Trail} {id : LabelId}
    (branch : Branch planner query direction tree trail id above)
    (lawful : planner.network.Lawful) (mayTake : planner.MayTake query direction above arc) :
    Trail.Leads planner.network query direction (arc :: trail) arc.far := by
  have near := lawful.near_eq mayTake.member
  exact ⟨near ▸ mayTake.member, rfl, branch.isRoot_eq ▸ mayTake.allows,
    near ▸ branch.leads lawful⟩

/-- Trails that both end over one arc make up a walk whose ends begin over the pins. -/
theorem Trail.beginsOver {network : Network Exact} (lawful : network.Lawful) {before : Trail}
    {rest : Walk Exact} {node other : NodeId}
    (left : Trail.Leads network query .forward (arc :: before) node)
    (right : Trail.Leads network query .backward ((arc :: rest).map Arc.flip) other) :
    Walk.Connects network query.ends.forward (before.reverse ++ arc :: rest)
        query.ends.backward ∧
      Walk.BeginsOver query.pins (before.reverse ++ arc :: rest) := by
  obtain ⟨_, _, pinned⟩ := (Trail.leads_forward lawful _ _).mp left
  obtain ⟨connectsBefore, _⟩ := (Trail.leads_forward lawful _ _).mp left.2.2.2
  obtain ⟨connects, pinnedRest⟩ := Trail.connects_backward lawful _ _ right
  rw [← lawful.near_eq connects.1] at connects
  refine ⟨connectsBefore.append connects, fun pin isPin => ?_, fun pin isPin => ?_⟩
  · obtain ⟨first, isFirst⟩ : ∃ first, (arc :: before).getLast? = some first :=
      ⟨_, List.getLast?_eq_some_getLast (List.cons_ne_nil _ _)⟩
    rw [Trail.head?_over, isFirst]
    exact congrArg some (pinned pin isPin first isFirst)
  · obtain ⟨last, isLast⟩ : ∃ last, (arc :: rest).getLast? = some last :=
      ⟨_, List.getLast?_eq_some_getLast (List.cons_ne_nil _ _)⟩
    rw [List.getLast?_append_of_ne_nil _ (List.cons_ne_nil _ _), isLast]
    exact congrArg some (pinnedRest pin isPin last isLast)

/-- The branches on both sides of a bridge make up a walk over it. -/
theorem Bridge.walk (bridge : Bridge planner query trees ends direction above arc)
    (lawful : planner.network.Lawful) (edgeBased : planner.settings.stateKind = .edgeBased)
    (grown : ∀ side, Grown planner query side (trees.get side)) :
    ∃ before rest,
      (∃ label, Branch planner query .forward trees.forward before ends.forward label) ∧
      (∃ label,
        Branch planner query .backward trees.backward (rest.map Arc.flip) ends.backward label) ∧
      Walk.Connects planner.network query.ends.forward (before.reverse ++ rest)
        query.ends.backward ∧
      Walk.BeginsOver query.pins (before.reverse ++ rest) := by
  obtain ⟨trail, branch⟩ := (grown direction).branch bridge.closed
  obtain ⟨there, opposite, branchThere, atKey⟩ := (grown direction.opposite).keyed bridge.there
  rw [edgeBased] at atKey
  obtain ⟨last, after, _, _, rfl, isKey, _, reaches⟩ := branchThere.last_arc edgeBased atKey
  obtain rfl := lawful.eq_flip direction bridge.mayTake.member reaches.member isKey
  have leads := branch.leads_on lawful bridge.mayTake
  have leadsThere := branchThere.leads lawful
  cases direction with
  | forward =>
      have flipped : (arc :: after.map Arc.flip).map Arc.flip = arc.flip :: after := by
        rw [List.map_cons, Trail.map_flip_flip]
      obtain ⟨connects, begins⟩ := Trail.beginsOver lawful leads (flipped.symm ▸ leadsThere)
      exact ⟨trail, arc :: after.map Arc.flip, ⟨above, branch⟩,
        ⟨opposite, flipped.symm ▸ branchThere⟩, connects, begins⟩
  | backward =>
      have flipped : (arc.flip :: trail.map Arc.flip).map Arc.flip = arc :: trail := by
        rw [List.map_cons, Trail.map_flip_flip, Arc.flip_flip]
      obtain ⟨connects, begins⟩ := Trail.beginsOver lawful leadsThere (flipped.symm ▸ leads)
      have regroup : after.reverse ++ arc.flip :: trail.map Arc.flip =
          (arc.flip :: after).reverse ++ trail.map Arc.flip := by simp
      rw [regroup] at connects begins
      exact ⟨arc.flip :: after, trail.map Arc.flip, ⟨opposite, branchThere⟩,
        ⟨above, (Trail.map_flip_flip trail).symm ▸ branch⟩, connects, begins⟩

/-- The best meeting of a query leads along a walk whose ends begin over the pins. -/
theorem Pursued.walk (pursued : Pursued planner query search) (lawful : planner.network.Lawful)
    (edgeBased : planner.settings.stateKind = .edgeBased) {meeting : Meeting Exact}
    (isBest : search.best = some meeting) :
    ∃ before rest,
      (∃ label,
        Branch planner query .forward search.trees.forward before meeting.ends.forward label) ∧
      (∃ label, Branch planner query .backward search.trees.backward (rest.map Arc.flip)
        meeting.ends.backward label) ∧
      Walk.Connects planner.network query.ends.forward (before.reverse ++ rest)
        query.ends.backward ∧
      Walk.BeginsOver query.pins (before.reverse ++ rest) := by
  have grown (side : Direction) : Grown planner query side (search.tree side) := by
    obtain ⟨_, _, explores, _⟩ := pursued.explores side
    exact explores.explored.grown
  rcases pursued.bridged meeting isBest with immediate | ⟨_, _, _, bridge⟩
  · have carries := immediate.carries grown
    refine ⟨[], [], carries.forward, carries.backward, carries.admissible.connects, ?_, ?_⟩
    · intro pin isPin
      cases (immediate.unpinned .forward).symm.trans isPin
    · intro pin isPin
      cases (immediate.unpinned .backward).symm.trans isPin
  · exact bridge.walk lawful edgeBased grown

end Walk

section Query

variable {source target : NodeId} {sourceEdge targetEdge : Option EdgeId} {clock : Clock}
  {route : Route Exact}

/-- A route that an edge-based query is answered with leads from the source to the target. Its
first arc begins over the original edge that is pinned at the source, and its last arc begins over
the one that is pinned at the target. -/
theorem route_beginsOver (edgeBased : planner.settings.stateKind = .edgeBased)
    (network : planner.network.Lawful)
    (nonNegative : planner.pricing.NonNegative planner.network) (maker : planner.maker.Lawful)
    (blank : search.Blank)
    (found : (planner.route source sourceEdge target targetEdge clock search).1 =
      .ok (some route)) :
    ∃ walk, Walk.Connects planner.network source walk target ∧ route.Follows source walk ∧
      Walk.BeginsOver ⟨sourceEdge, targetEdge⟩ walk := by
  unfold Planner.route at found
  split at found
  · cases found
  dsimp only at found
  split at found
  · cases found
  rename_i begun accepted
  have pinned : Search.Blank { search with pins := ⟨sourceEdge, targetEdge⟩ } :=
    ⟨blank.trees, blank.best⟩
  have begins : Pursued planner (.between source target ⟨sourceEdge, targetEdge⟩ search.filter)
      begun := by
    rw [(planner.start_eq_ok accepted).1]
    exact pinned.pursued edgeBased network nonNegative maker ⟨source, target⟩ (.both 0) (clock 0)
  have pursued := planner.run_keeps (P := Pursued planner
      (.between source target ⟨sourceEdge, targetEdge⟩ search.filter))
    (fun _ _ _ pursued => ⟨fun side => by
      obtain ⟨root, past, explores, ready⟩ := pursued.explores side
      exact ⟨root, past, ⟨explores.filter, explores.disciplined, explores.explored⟩, ready⟩,
      pursued.bridged⟩)
    (fun _ direction pursued => pursued.advance edgeBased network nonNegative maker direction)
    (fun reading => clock (reading + 1)) begins
  obtain ⟨meeting, isBest, _, read⟩ := planner.result_eq_some found
  obtain ⟨before, rest, left, right, connects, beginsOver⟩ :=
    pursued.walk network edgeBased isBest
  obtain ⟨other, follows, _, same⟩ :=
    Route.between?_follows meeting.weight network left right connects
  rw [same _ (fun _ => .refl _) fun _ => rfl] at read
  cases read
  exact ⟨before.reverse ++ rest, connects, follows, beginsOver⟩

/-- Two one-way streets between the same nodes. -/
def EdgeList.twins : EdgeList Exact where
  nodeCount := 2
  edges := #[.oneWay 0 1 (.finite 100), .oneWay 0 1 (.finite 200)]
  fits := by
    intro record member
    rcases List.mem_cons.mp (Array.mem_toList_iff.mpr member) with rfl | later
    · exact ⟨by decide, by decide, by decide⟩
    · rw [List.mem_singleton.mp later]
      exact ⟨by decide, by decide, by decide⟩

/-- A planner over the twin streets. Each of them begins with an original edge of its own number
and ends with that of its twin. -/
def Planner.overTwins : Planner Exact Unit Unit where
  network := EdgeList.twins.pack.network.withChains fun edge => some (edge, 1 - edge)
  pricing := .shortest
  settings := { stateKind := .edgeBased }
  maker := .plain

theorem Planner.overTwins_lawful : Planner.overTwins.network.Lawful :=
  EdgeList.twins.lawful_pack.withChains _

theorem Planner.overTwins_nonNegative :
    Planner.overTwins.pricing.NonNegative Planner.overTwins.network := by
  intro node arc direction member _ neighbour
  obtain ⟨street, inner, rfl⟩ := List.mem_map.mp member
  have length := EdgeList.twins.length_isPrice node street inner
  obtain ⟨_, _, isChain⟩ := street.chained_eq fun edge => some (edge, 1 - edge)
  rw [isChain]
  exact length

theorem Planner.overTwins_route :
    (Planner.overTwins.route 0 none 1 (some 0) (fun _ => 0) (.fresh ())).1 =
      .ok (some ⟨.finite 100, .finite 100, [0, 1], [0]⟩) := by
  cbv

theorem route_beginsOver_twins : ∃ route,
    (Planner.overTwins.route 0 none 1 (some 0) (fun _ => 0) (.fresh ())).1 = .ok (some route) ∧
      ∃ walk, Walk.Connects Planner.overTwins.network 0 walk 1 ∧ route.Follows 0 walk ∧
        Walk.BeginsOver ⟨none, some 0⟩ walk :=
  ⟨_, Planner.overTwins_route, route_beginsOver rfl Planner.overTwins_lawful
    Planner.overTwins_nonNegative LabelMaker.plain_lawful
    (Planner.overTwins.performAll_blank (fun _ => 0) [] () rfl) Planner.overTwins_route⟩

/-- The pin at the target asks for an original edge over which the route does not arrive: the
route follows a walk, and no walk that it follows ends over the pinned edge. -/
theorem route_misses_pin_twins :
    Planner.overTwins.network.Lawful ∧
      Planner.overTwins.pricing.NonNegative Planner.overTwins.network ∧ ∃ route,
      (Planner.overTwins.route 0 none 1 (some 0) (fun _ => 0) (.fresh ())).1 = .ok (some route) ∧
      (∃ walk, Walk.Connects Planner.overTwins.network 0 walk 1 ∧ route.Follows 0 walk) ∧
      ∀ walk, Walk.Connects Planner.overTwins.network 0 walk 1 → route.Follows 0 walk →
        ¬ Walk.MeetsPins ⟨none, some 0⟩ walk := by
  refine ⟨Planner.overTwins_lawful, Planner.overTwins_nonNegative, _, Planner.overTwins_route,
    ⟨[Arc.chained (fun edge => some (edge, 1 - edge))
      ((StoredEdge.oneWay 0 1 (.finite 100)).arc 0 false)], ⟨?_, rfl⟩, rfl, rfl, by cbv⟩, ?_⟩
  · exact List.mem_map_of_mem (EdgeList.mem_arcs_pack.mpr ⟨0, _, false, rfl, rfl, rfl⟩)
  · intro walk connects follows meetsPins
    obtain ⟨arc, rfl, isFirst⟩ := List.map_eq_singleton_iff.mp follows.edges.symm
    obtain ⟨street, inner, rfl⟩ := List.mem_map.mp connects.1
    obtain ⟨edge, record, reversed, stored, rfl, near⟩ := EdgeList.mem_arcs_pack.mp inner
    have arrives := meetsPins.2 0 rfl
    cases reversed with
    | false =>
        obtain rfl : edge = 0 := isFirst
        cases arrives
    | true =>
        obtain rfl : edge = 0 := isFirst
        obtain rfl : StoredEdge.oneWay 0 1 (.finite 100) = record := Option.some.inj stored
        cases near

end Query

end RouteSearch
