/-
This file proves that the steps of a search look neither at its pins, nor at its times, nor at
which directions have finished.
-/

import RouteSearch.Proofs.History

namespace RouteSearch

variable {W X S : Type}

/-- What stands beside the work of a search. A direction counts as finished where `ended` says
so, whatever it has found. -/
structure Aside where
  pins : Sides (Option EdgeId)
  startedAt : Option Nat
  ended : Sides Bool

namespace SearchTree

/-- The tree, which is finished now if `ended` says so. -/
def endIf (tree : SearchTree W X) (ended : Bool) : SearchTree W X :=
  tree.finish (tree.finished || ended)

variable (tree : SearchTree W X) (ended : Bool) (id : LabelId)

@[simp] theorem lookup?_endIf (key : StateKey) :
    (tree.endIf ended).lookup? key = tree.lookup? key := rfl

@[simp] theorem label?_endIf : (tree.endIf ended).label? id = tree.label? id := rfl

@[simp] theorem setLabel_endIf (label : Label W X) :
    (tree.endIf ended).setLabel id label = (tree.setLabel id label).endIf ended := rfl

@[simp] theorem finish_endIf :
    (tree.endIf ended).finish true = (tree.finish true).endIf ended := rfl

@[simp] theorem endIf_false : tree.endIf false = tree := by
  rw [endIf, Bool.or_false]
  rfl

/-- Whether a tree is finished does not matter on the way to its root. -/
theorem lineage?_finish (finished : Bool) :
    (tree.finish finished).lineage? id = tree.lineage? id := by
  have within (steps : Nat) (id : LabelId) :
      (tree.finish finished).lineageWithin steps id = tree.lineageWithin steps id := by
    induction steps generalizing id with
    | zero => rfl
    | succ steps ih =>
        unfold lineageWithin
        simp only [ih]
        rfl
  exact within tree.size id

variable [Weight W]

@[simp] theorem add_endIf (key : Option StateKey) (label : Label W X) :
    (tree.endIf ended).add key label = (tree.add key label).endIf ended := rfl

@[simp] theorem reopen_endIf :
    (tree.endIf ended).reopen id = (tree.reopen id).endIf ended := by
  unfold reopen
  rw [label?_endIf]
  cases tree.label? id <;> rfl

theorem pop?_endIf : (tree.endIf ended).pop? =
    tree.pop?.map fun (id, seen, rest) => (id, seen, rest.endIf ended) := by
  unfold pop?
  rw [show (tree.endIf ended).queue = tree.queue from rfl]
  cases tree.queue.pop? <;> rfl

end SearchTree

namespace Search

/-- The search with other things beside its work. -/
def beside (search : Search W X S) (aside : Aside) : Search W X S :=
  { search with
    pins := aside.pins
    startedAt := aside.startedAt
    trees := ⟨search.trees.forward.endIf aside.ended.forward,
      search.trees.backward.endIf aside.ended.backward⟩ }

/-- The search with other pins. -/
def withPins (search : Search W X S) (pins : Sides (Option EdgeId)) : Search W X S :=
  { search with pins := pins }

variable {search : Search W X S} {aside : Aside}

@[simp] theorem withPins_beside (search : Search W X S) (aside : Aside)
    (pins : Sides (Option EdgeId)) : (search.beside aside).withPins pins =
      (search.withPins pins).beside { aside with pins := pins } := rfl

@[simp] theorem tree_beside (search : Search W X S) (aside : Aside) (direction : Direction) :
    (search.beside aside).tree direction =
      (search.tree direction).endIf (aside.ended.get direction) := by
  cases direction <;> rfl

@[simp] theorem withTree_beside (search : Search W X S) (aside : Aside) (direction : Direction)
    (tree : SearchTree W X) :
    (search.beside aside).withTree direction (tree.endIf (aside.ended.get direction)) =
      (search.withTree direction tree).beside aside := by
  cases direction <;> rfl

/-- Nothing but pins and start change if no direction is told to end. -/
theorem beside_unended (ended : aside.ended = .both false) :
    search.beside aside = { search with pins := aside.pins, startedAt := aside.startedAt } := by
  unfold beside
  rw [ended]
  simp only [Sides.both, SearchTree.endIf_false]

theorem withPins_eq_beside (search : Search W X S) (pins : Sides (Option EdgeId)) :
    search.withPins pins = search.beside ⟨pins, search.startedAt, .both false⟩ := by
  rw [beside_unended rfl]
  rfl

theorem beside_eq (pins : aside.pins = search.pins) (ended : aside.ended = .both false) :
    search.beside aside = { search with startedAt := aside.startedAt } := by
  rw [beside_unended ended, pins]

theorem beside_eq_self (pins : aside.pins = search.pins)
    (startedAt : aside.startedAt = search.startedAt) (ended : aside.ended = .both false) :
    search.beside aside = search := by
  rw [beside_eq pins ended, startedAt]

variable [Weight W]

/-- A search is finished also if one of its directions is told to be. -/
theorem finished_beside (search : Search W X S) (aside : Aside) :
    (search.beside aside).finished =
      (search.finished || (aside.ended.forward || aside.ended.backward)) := by
  change ((search.trees.forward.finished || aside.ended.forward) ||
    (search.trees.backward.finished || aside.ended.backward) ||
      search.isBeaten (search.trees.forward.lastWeight + search.trees.backward.lastWeight)) = _
  unfold finished
  ac_rfl

theorem propose_beside (search : Search W X S) (aside : Aside) (direction : Direction)
    (here there : LabelId) (weight : W) :
    (search.beside aside).propose direction here there weight =
      (search.propose direction here there weight).beside aside := by
  unfold propose
  rw [show (search.beside aside).bestWeight = search.bestWeight from rfl]
  split <;> rfl

end Search

namespace Planner

/-- Two searches that started at different times cannot be told apart, unless time is limited. -/
def Untimed (planner : Planner W X S) (clock other : Clock)
    (startedAt startedAtOther : Option Nat) : Prop :=
  planner.settings.timeoutMs = none ∨ other = clock ∧ startedAtOther = startedAt

variable {planner : Planner W X S} {search : Search W X S} {aside : Aside} {clock other : Clock}
  {startedAt startedAtOther : Option Nat}

theorem Untimed.getD (untimed : planner.Untimed clock other startedAt startedAtOther) :
    planner.Untimed clock other (some (startedAt.getD (clock 0)))
      (some (startedAtOther.getD (other 0))) :=
  untimed.imp_right fun ⟨sameClock, sameStart⟩ => ⟨sameClock, by rw [sameClock, sameStart]⟩

theorem reachedLimit?_beside
    (untimed : planner.Untimed clock other search.startedAt aside.startedAt) (reading : Nat) :
    planner.reachedLimit? (search.beside aside) (other reading) =
      planner.reachedLimit? search (clock reading) := by
  unfold reachedLimit?
  rw [show (search.beside aside).visited = search.visited from rfl,
    show (search.beside aside).startedAt = aside.startedAt from rfl]
  rcases untimed with noTime | ⟨rfl, sameStart⟩
  · rw [noTime]
  · rw [sameStart]

end Planner

namespace Planner

variable [Weight W] (planner : Planner W X S) (search : Search W X S) (aside : Aside)

section Steps

variable (direction : Direction) (step : Option (ArcFilter W)) (id : LabelId)
  (label : Label W X) (arc : Arc W)

theorem record_beside (weight : W) :
    planner.record direction id arc weight (search.beside aside) =
      (planner.record direction id arc weight search).map
        fun (written, after) => (written, after.beside aside) := by
  unfold record
  rw [Search.tree_beside]
  simp only [SearchTree.lookup?_endIf, SearchTree.label?_endIf, SearchTree.setLabel_endIf,
    SearchTree.reopen_endIf, SearchTree.add_endIf, Search.withTree_beside]
  cases (search.tree direction).lookup? (planner.settings.stateKind.key arc direction) with
  | none => rfl
  | some other =>
      dsimp only
      cases (search.tree direction).label? other with
      | none => rfl
      | some known =>
          dsimp only
          split <;> rfl

theorem meet_beside :
    planner.meet direction arc id (search.beside aside) =
      (planner.meet direction arc id search).beside aside := by
  unfold meet
  simp only [Search.tree_beside, SearchTree.lookup?_endIf, SearchTree.label?_endIf,
    Search.propose_beside]
  cases (search.tree direction.opposite).lookup? (planner.settings.stateKind.key arc direction) with
  | none => rfl
  | some other =>
      dsimp only
      cases (search.tree direction).label? id with
      | none => rfl
      | some label =>
          cases (search.tree direction.opposite).label? other with
          | none => rfl
          | some opposite =>
              dsimp only
              cases planner.settings.stateKind with
              | nodeBased => rfl
              | edgeBased => cases label.parent <;> rfl

theorem relax_beside :
    planner.relax direction step id label (search.beside aside) arc =
      (planner.relax direction step id label search arc).beside aside := by
  unfold relax
  rw [show planner.admits (search.beside aside) = planner.admits search from rfl]
  split
  · dsimp only
    rw [record_beside]
    split
    · rfl
    · cases planner.record direction id arc (planner.reachWeight direction label arc) search with
      | none => rfl
      | some written =>
          dsimp only [Option.map_some]
          split
          · exact planner.meet_beside written.2 aside direction written.1 arc
          · rfl
  · rfl

theorem expand_beside :
    planner.expand direction step id label (search.beside aside) =
      (planner.expand direction step id label search).beside aside :=
  List.foldl_hom (Search.beside · aside) fun middle arc =>
    planner.relax_beside middle aside direction step id label arc

theorem settle_beside :
    planner.settle direction step (search.beside aside) =
      ((planner.settle direction step search).1,
        (planner.settle direction step search).2.beside aside) := by
  unfold settle
  rw [Search.tree_beside, SearchTree.pop?_endIf]
  cases (search.tree direction).pop? with
  | none => rfl
  | some taken =>
      obtain ⟨id, seen, tree⟩ := taken
      dsimp only [Option.map_some]
      rw [Search.withTree_beside, SearchTree.label?_endIf]
      cases seen with
      | true => rfl
      | false =>
          cases tree.label? id with
          | none => rfl
          | some label =>
              dsimp only
              rw [expand_beside, show ((search.withTree direction tree).beside aside).isBeaten =
                (search.withTree direction tree).isBeaten from rfl]
              split <;> rfl

/-- A step does the same work, whatever stands beside it. -/
theorem advanceUnder_beside :
    planner.advanceUnder direction step (search.beside aside) =
      ((planner.advanceUnder direction step search).1,
        (planner.advanceUnder direction step search).2.beside aside) := by
  unfold advanceUnder
  rw [settle_beside]
  generalize planner.settle direction step search = outcome
  obtain ⟨progress, after⟩ := outcome
  cases progress with
  | progressed => rfl
  | exhausted =>
      dsimp only
      rw [Search.tree_beside, SearchTree.finish_endIf, Search.withTree_beside]

theorem advance_beside :
    planner.advance direction (search.beside aside) =
      ((planner.advance direction search).1, (planner.advance direction search).2.beside aside) :=
  planner.advanceUnder_beside search aside direction none

theorem follow_beside (steps : List (Step W)) :
    planner.follow steps (search.beside aside) = (planner.follow steps search).beside aside := by
  induction steps generalizing search with
  | nil => rfl
  | cons step steps ih =>
      rw [follow, follow, advanceUnder_beside]
      exact ih _

theorem follow_pins (steps : List (Step W)) :
    (planner.follow steps search).pins = search.pins := by
  induction steps generalizing search with
  | nil => rfl
  | cons step steps ih => exact (ih _).trans (planner.advanceUnder_touches _ _ search).pins

theorem follow_startedAt (steps : List (Step W)) :
    (planner.follow steps search).startedAt = search.startedAt := by
  induction steps generalizing search with
  | nil => rfl
  | cons step steps ih => exact (ih _).trans (planner.advanceUnder_touches _ _ search).startedAt

end Steps

section Seed

variable (source target : NodeId) (sourceWeight targetWeight : W) (now later : Nat)

theorem plant_beside (direction : Direction) (node : NodeId) (weight : W) :
    planner.plant direction node weight (search.beside aside) =
      (planner.plant direction node weight search).beside aside := by
  cases direction <;> rfl

theorem planted_beside (samePins : aside.pins = search.pins) :
    planner.planted source sourceWeight target targetWeight later (search.beside aside) =
      (planner.planted source sourceWeight target targetWeight now search).beside
        { aside with startedAt := some later } := by
  have begun : { search.beside aside with seeded := true, startedAt := some later } =
      Search.beside { search with seeded := true, startedAt := some now }
        { aside with startedAt := some later } := rfl
  unfold planted
  dsimp only
  rw [begun, plant_beside, plant_beside]
  have pinned : (planner.plant .backward target targetWeight (planner.plant .forward source
      sourceWeight { search with seeded := true, startedAt := some now })).pins = search.pins := rfl
  generalize planner.plant .backward target targetWeight _ = both at pinned ⊢
  have sameVerdict : (both.beside { aside with startedAt := some later }).isPinned =
      both.isPinned := by
    unfold Search.isPinned
    rw [pinned, ← samePins]
    rfl
  rw [sameVerdict]
  split
  · cases planner.settings.stateKind with
    | nodeBased =>
        dsimp only
        split <;> rfl
    | edgeBased =>
        dsimp only
        split <;> rfl
  · rfl

theorem seed_beside (samePins : aside.pins = search.pins) :
    planner.seed source sourceWeight target targetWeight later (search.beside aside) =
      (planner.seed source sourceWeight target targetWeight now search).beside
        { aside with startedAt := some later } := by
  have sameSteps : planner.rootSteps source target (search.beside aside) =
      planner.rootSteps source target search := by
    unfold rootSteps Search.isPinned
    rw [show (search.beside aside).pins = search.pins from samePins]
  rw [seed_eq_follow, seed_eq_follow, sameSteps,
    planted_beside _ _ _ source target sourceWeight targetWeight now later samePins,
    follow_beside]

/-- A query is let through or refused alike under the same pins. -/
theorem start_beside (samePins : search.seeded = true ∨ aside.pins = search.pins) :
    planner.start source sourceWeight target targetWeight later (search.beside aside) =
      (planner.start source sourceWeight target targetWeight now search).map
        (·.beside { aside with startedAt := some later }) := by
  have sameCheck : planner.check (search.beside aside) source target =
      planner.check search source target := by
    unfold check Search.isPinned
    rw [show (search.beside aside).seeded = search.seeded from rfl]
    rcases samePins with seeded | samePins
    · rw [seeded]
      rfl
    · rw [show (search.beside aside).pins = search.pins from samePins]
  unfold start
  rw [sameCheck]
  cases checked : planner.check search source target with
  | error fault => rfl
  | ok =>
      have unseeded := planner.unseeded_of_check checked
      exact congrArg Except.ok (seed_beside planner search aside source target sourceWeight
        targetWeight now later (samePins.resolve_left (Bool.eq_false_iff.mp unseeded)))

theorem seed_frame (source target : NodeId) (sourceWeight targetWeight : W) (now : Nat) :
    (planner.seed source sourceWeight target targetWeight now search).pins = search.pins ∧
      (planner.seed source sourceWeight target targetWeight now search).startedAt = some now := by
  rw [seed_eq_follow]
  have planted : (planner.planted source sourceWeight target targetWeight now search).startedAt =
      some now := by
    unfold planted
    dsimp only
    split
    · split
      · split <;> rfl
      · split <;> rfl
    · rfl
  constructor
  · rw [follow_pins]
    exact (planner.planted_frame source sourceWeight target targetWeight now search).2.2
  · rw [follow_startedAt, planted]

/-- A query that is let through keeps the pins and notes its start. -/
theorem start_frame {planner : Planner W X S} {search begun : Search W X S}
    {source target : NodeId} {sourceWeight targetWeight : W} {now : Nat}
    (accepted : planner.start source sourceWeight target targetWeight now search = .ok begun) :
    begun.pins = search.pins ∧ begun.startedAt = some now := by
  obtain ⟨rfl, _⟩ := planner.start_eq_ok accepted
  exact planner.seed_frame search source target sourceWeight targetWeight now

end Seed

section Run

variable {planner search aside} {clock other : Clock}

theorem route_again (seeded : search.seeded = true) (source target : NodeId)
    (sourceEdge targetEdge : Option EdgeId) (clock : Clock) :
    planner.route source sourceEdge target targetEdge clock search =
      (.error .alreadyRun, search) := by
  rw [route, if_pos seeded]

/-- A query that brings its pins along is answered as it is step by step under these pins. -/
theorem route_eq (unseeded : search.seeded = false) (source target : NodeId)
    (sourceEdge targetEdge : Option EdgeId) (clock : Clock) :
    planner.route source sourceEdge target targetEdge clock search =
      planner.routeWeighted source Weight.zero target Weight.zero clock
        (search.withPins ⟨sourceEdge, targetEdge⟩) := by
  unfold route
  rw [if_neg (Bool.eq_false_iff.mp unseeded)]
  rfl

/-- Reading the answer takes the best meeting and the ways to the roots. -/
theorem result_congr {first second : Search W X S} (finished : first.finished = second.finished)
    (best : first.best = second.best)
    (lineages : ∀ side id, (first.tree side).lineage? id = (second.tree side).lineage? id) :
    planner.result first = planner.result second := by
  have between (ends : Sides LabelId) (weight : W) :
      Route.between? planner.network first.trees ends weight =
        Route.between? planner.network second.trees ends weight := by
    unfold Route.between?
    rw [show first.trees.forward.lineage? ends.forward = _ from lineages .forward _,
      show first.trees.backward.lineage? ends.backward = _ from lineages .backward _]
    rfl
  unfold result
  rw [finished, best]
  simp only [between]

/-- What does not end a search beside it does not show in its steps either. -/
theorem paces_beside (ended : aside.ended = .both false) :
    Paces planner planner fun search => search.beside aside where
  finished search := by
    rw [Search.finished_beside, ended]
    exact Bool.or_false _
  turn _ := rfl
  follow steps search := planner.follow_beside search aside steps
  stop _ _ := rfl

theorem run_beside (ended : aside.ended = .both false)
    (untimed : planner.Untimed clock other search.startedAt aside.startedAt) :
    planner.run other (search.beside aside) = (planner.run clock search).beside
      { aside with startedAt := some (aside.startedAt.getD (other 0)) } := by
  have paces : Paces planner planner fun search : Search W X S => search.beside
      { aside with startedAt := some (aside.startedAt.getD (other 0)) } := paces_beside ended
  exact paces.run_eq _ _ rfl fun moment reading same =>
    reachedLimit?_beside (same ▸ untimed.getD) (reading + 1)

/-- A run keeps the pins of a search and its start, if it was started. -/
theorem run_frame (planner : Planner W X S) (clock : Clock) (search : Search W X S) :
    (planner.run clock search).pins = search.pins ∧
    (planner.run clock search).seeded = search.seeded ∧
    (planner.run clock search).startedAt = some (search.startedAt.getD (clock 0)) := by
  rcases planner.run_cases clock search with ⟨steps, limit, ends, isRun, _⟩ | ⟨isRun, _⟩
  · rw [isRun]
    refine ends.keeps (P := fun after => after.pins = search.pins ∧ after.seeded = search.seeded ∧
      after.startedAt = some (search.startedAt.getD (clock 0))) ?_ ⟨rfl, rfl, rfl⟩
    rintro after direction ⟨pins, seeded, startedAt⟩
    have touches := planner.advanceUnder_touches direction none after
    exact ⟨touches.pins.trans pins, touches.seeded.trans seeded,
      touches.startedAt.trans startedAt⟩
  · rw [isRun]
    exact ⟨rfl, rfl, rfl⟩

end Run

end Planner

end RouteSearch
