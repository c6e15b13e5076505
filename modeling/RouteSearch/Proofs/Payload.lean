/-
This file proves that a search does the same with another label maker, if the labels differ in
their payloads only.
-/

import RouteSearch.Search.Payload
import RouteSearch.Proofs.Anytime

namespace RouteSearch

variable {W X Y S T : Type} (f : X → Y) (g : S → T)

/-- A maker that makes labels as the plain one does maps to it. -/
theorem LabelMaker.Lawful.maps {maker : LabelMaker W X S} (lawful : maker.Lawful) :
    LabelMaker.Maps (fun _ => ()) (fun _ => ()) maker .plain where
  root state node weight direction := by
    obtain ⟨payload, made⟩ := lawful.root state node weight direction
    rw [Prod.map, made]
    rfl
  create state arc weight parent direction := by
    obtain ⟨payload, made⟩ := lawful.create state arc weight parent direction
    rw [Prod.map, made]
    rfl
  update state label arc weight parent direction := by
    obtain ⟨payload, made⟩ := lawful.update state label arc weight parent direction
    rw [Prod.map, made]
    rfl

namespace SearchTree

variable (tree : SearchTree W X) (id : LabelId) (label : Label W X)

@[simp] theorem lookup?_map (key : StateKey) : (tree.map f).lookup? key = tree.lookup? key := rfl

@[simp] theorem size_map : (tree.map f).size = tree.size := Array.size_map

@[simp] theorem label?_map : (tree.map f).label? id = (tree.label? id).map (Label.map f) := by
  simp [label?, map, Function.comp_def, Kept.map]

/-- What is done to one kept label may be done before or after the payloads are exchanged. -/
theorem modify_map (kept : Array (Kept W X)) (change : Kept W X → Kept W X)
    (changeToo : Kept W Y → Kept W Y)
    (same : ∀ entry, changeToo (entry.map f) = (change entry).map f) :
    (kept.map (Kept.map f)).modify id changeToo = (kept.modify id change).map (Kept.map f) := by
  apply Array.ext_getElem?
  intro place
  simp only [Array.getElem?_modify, Array.getElem?_map]
  split
  · cases kept[place]? with
    | none => rfl
    | some entry => exact congrArg some (same entry)
  · rfl

@[simp] theorem setLabel_map :
    (tree.map f).setLabel id (label.map f) = (tree.setLabel id label).map f := by
  unfold setLabel
  rw [map, modify_map f id tree.kept (fun kept => { kept with label := label }) _ fun _ => rfl]
  rfl

@[simp] theorem finish_map (finished : Bool) :
    (tree.map f).finish finished = (tree.finish finished).map f := rfl

theorem lineage?_map :
    (tree.map f).lineage? id = (tree.lineage? id).map (List.map (Label.map f)) := by
  have within (steps : Nat) (id : LabelId) : (tree.map f).lineageWithin steps id =
      (tree.lineageWithin steps id).map (List.map (Label.map f)) := by
    induction steps generalizing id with
    | zero => rfl
    | succ steps ih =>
        unfold lineageWithin
        rw [label?_map]
        cases tree.label? id with
        | none => rfl
        | some label =>
            obtain ⟨edge, node, weight, parent, payload⟩ := label
            cases parent with
            | none => rfl
            | some parent =>
                simp only [Option.map_some, Option.bind_eq_bind, Option.bind_some, Label.map, ih]
                cases tree.lineageWithin steps parent <;> rfl
  rw [lineage?, size_map]
  exact within _ id

variable [Weight W]

@[simp] theorem add_map (key : Option StateKey) :
    (tree.map f).add key (label.map f) = (tree.add key label).map f := by
  unfold add
  rw [size_map]
  unfold map
  rw [Array.map_push]
  rfl

@[simp] theorem addRoot_map (key : Option StateKey) :
    (tree.map f).addRoot key (label.map f) = (tree.addRoot key label).map f := by
  unfold addRoot
  rw [add_map, size_map]
  rfl

@[simp] theorem reopen_map : (tree.map f).reopen id = (tree.reopen id).map f := by
  unfold reopen
  rw [label?_map]
  cases tree.label? id <;> rfl

theorem pop?_map : (tree.map f).pop? =
    tree.pop?.map fun (id, seen, rest) => (id, seen, rest.map f) := by
  unfold pop?
  rw [show (tree.map f).queue = tree.queue from rfl]
  cases tree.queue.pop? with
  | none => rfl
  | some popped =>
      obtain ⟨first, queue⟩ := popped
      have seen : (tree.map f).kept[first.id]?.any (·.settled) =
          tree.kept[first.id]?.any (·.settled) := by
        rw [map, Array.getElem?_map]
        cases tree.kept[first.id]? <;> rfl
      dsimp only [Option.map_some]
      rw [seen, map,
        modify_map f first.id tree.kept (fun kept => { kept with settled := true }) _ fun _ => rfl]
      rfl

@[simp] theorem lastWeight_map : (tree.map f).lastWeight = tree.lastWeight := by
  unfold lastWeight
  rw [show (tree.map f).last = tree.last from rfl]
  cases tree.last with
  | none => rfl
  | some id =>
      rw [Option.bind_some, Option.bind_some, label?_map]
      cases tree.label? id <;> rfl

end SearchTree

namespace Search

variable (search : Search W X S) (direction : Direction)

@[simp] theorem fresh_map (makerState : S) :
    (Search.fresh makerState : Search W X S).map f g = .fresh (g makerState) := by
  simp [fresh, map, Sides.both, Sides.map, SearchTree.map]

@[simp] theorem tree_map : (search.map f g).tree direction = (search.tree direction).map f := by
  cases direction <;> rfl

@[simp] theorem withTree_map (tree : SearchTree W X) :
    (search.map f g).withTree direction (tree.map f) =
      (search.withTree direction tree).map f g := by
  cases direction <;> rfl

variable [Weight W]

@[simp] theorem finished_map : (search.map f g).finished = search.finished := by
  change (search.trees.forward.finished || search.trees.backward.finished ||
    search.isBeaten ((search.trees.forward.map f).lastWeight +
      (search.trees.backward.map f).lastWeight)) = _
  rw [SearchTree.lastWeight_map, SearchTree.lastWeight_map]
  rfl

@[simp] theorem propose_map (here there : LabelId) (weight : W) :
    (search.map f g).propose direction here there weight =
      (search.propose direction here there weight).map f g := by
  unfold propose
  rw [show (search.map f g).bestWeight = search.bestWeight from rfl]
  split <;> rfl

theorem taking?_map :
    (search.map f g).taking? direction = (search.taking? direction).map (Taking.map f) := by
  unfold taking?
  rw [tree_map, SearchTree.pop?_map]
  cases (search.tree direction).pop? with
  | none => rfl
  | some popped =>
      obtain ⟨id, again, tree⟩ := popped
      simp only [Option.map_some, Option.bind_eq_bind, Option.bind_some, SearchTree.label?_map]
      cases tree.label? id <;> rfl

end Search

namespace Takings

theorem map_append (past more : Takings W X) : map f (past ++ more) = past.map f ++ more.map f :=
  List.map_append

theorem map_own (direction : Direction) (taking : Option (Taking W X)) :
    map f (taking.toList.map (direction, ·)) =
      (taking.map (Taking.map f)).toList.map (direction, ·) := by
  cases taking <;> rfl

end Takings

namespace Route

theorem hops_map (labels : List (Label W X)) : hops (labels.map (Label.map f)) = hops labels := by
  induction labels with
  | nil => rfl
  | cons label rest ih =>
      cases rest with
      | nil => rfl
      | cons parent rest => exact congrArg _ ih

variable [Weight W]

/-- A route is read from edges, nodes and weights only. -/
theorem between?_map (network : Network W) (trees : Sides (SearchTree W X)) (ends : Sides LabelId)
    (weight : W) : between? network (trees.map (SearchTree.map f)) ends weight =
      between? network trees ends weight := by
  have spliced (forward backward : List (Label W X)) :
      splice network weight (forward.map (Label.map f)) (backward.map (Label.map f)) =
        splice network weight forward backward := by
    unfold splice
    rw [hops_map, hops_map, List.map_map, List.map_map]
    rfl
  unfold between? Sides.map
  dsimp only
  rw [SearchTree.lineage?_map, SearchTree.lineage?_map]
  cases trees.forward.lineage? ends.forward with
  | none => rfl
  | some forward =>
      cases trees.backward.lineage? ends.backward with
      | none => rfl
      | some backward => exact congrArg some (spliced forward backward)

end Route

namespace Planner

variable [Weight W] {f g} {planner : Planner W X S} {other : LabelMaker W Y T}
  (maps : LabelMaker.Maps f g planner.maker other) (search : Search W X S)

section Steps

variable (direction : Direction) (step : Option (ArcFilter W)) (id : LabelId)
  (label : Label W X) (arc : Arc W)

include maps in
/-- A way is written down alike, in the same label. -/
theorem record_map (weight : W) :
    (planner.withMaker other).record direction id arc weight (search.map f g) =
      (planner.record direction id arc weight search).map
        fun (written, after) => (written, after.map f g) := by
  have lookup : ((search.map f g).tree direction).lookup?
      ((planner.withMaker other).settings.stateKind.key arc direction) =
        (search.tree direction).lookup? (planner.settings.stateKind.key arc direction) := by
    rw [Search.tree_map]
    rfl
  cases found : (search.tree direction).lookup? (planner.settings.stateKind.key arc direction) with
  | none =>
      have made : (planner.withMaker other).maker.create (search.map f g).makerState arc weight id
          direction = _ := maps.create search.makerState arc weight id direction
      rw [record_of_unknown found, record_of_unknown (lookup.trans found), made, Search.tree_map,
        SearchTree.size_map, Prod.map_fst, SearchTree.add_map, Search.withTree_map]
      rfl
  | some known =>
      have label : ((search.map f g).tree direction).label? known =
          ((search.tree direction).label? known).map (Label.map f) := by
        rw [Search.tree_map, SearchTree.label?_map]
      cases atKnown : (search.tree direction).label? known with
      | none =>
          rw [atKnown] at label
          rw [record_of_missing found atKnown, record_of_missing (lookup.trans found) label]
          rfl
      | some held =>
          rw [atKnown] at label
          have made : (planner.withMaker other).maker.update (search.map f g).makerState
              (held.map f) arc weight id direction = _ :=
            maps.update search.makerState held arc weight id direction
          rw [record_of_known found atKnown, record_of_known (lookup.trans found) label, made,
            Search.tree_map, Prod.map_fst, SearchTree.setLabel_map, SearchTree.reopen_map,
            Search.withTree_map, show (held.map f).weight = held.weight from rfl]
          split <;> rfl

theorem meet_map :
    (planner.withMaker other).meet direction arc id (search.map f g) =
      (planner.meet direction arc id search).map f g := by
  unfold meet
  rw [show (planner.withMaker other).settings = planner.settings from rfl,
    show (planner.withMaker other).pricing = planner.pricing from rfl]
  simp only [Search.tree_map, SearchTree.lookup?_map, SearchTree.label?_map]
  cases (search.tree direction.opposite).lookup? (planner.settings.stateKind.key arc direction) with
  | none => rfl
  | some there =>
      dsimp only
      cases (search.tree direction).label? id with
      | none => rfl
      | some label =>
          cases (search.tree direction.opposite).label? there with
          | none => rfl
          | some opposite =>
              obtain ⟨edge, node, weight, parent, payload⟩ := label
              dsimp only [Option.map_some, Label.map]
              cases planner.settings.stateKind with
              | nodeBased => exact Search.propose_map f g search direction id there _
              | edgeBased =>
                  cases parent with
                  | none => rfl
                  | some parent => exact Search.propose_map f g search direction parent there _

include maps

theorem relax_map :
    (planner.withMaker other).relax direction step id (label.map f) (search.map f g) arc =
      (planner.relax direction step id label search arc).map f g := by
  unfold relax
  rw [show (planner.withMaker other).admits (search.map f g) = planner.admits search from rfl,
    show (planner.withMaker other).reachWeight direction (label.map f) arc =
      planner.reachWeight direction label arc from rfl,
    show (planner.withMaker other).settings = planner.settings from rfl,
    show (label.map f).edge = label.edge from rfl]
  split
  · dsimp only
    rw [record_map maps]
    split
    · rfl
    · cases planner.record direction id arc (planner.reachWeight direction label arc) search with
      | none => rfl
      | some written =>
          dsimp only [Option.map_some]
          split
          · exact meet_map written.2 direction written.1 arc
          · rfl
  · rfl

theorem expand_map :
    (planner.withMaker other).expand direction step id (label.map f) (search.map f g) =
      (planner.expand direction step id label search).map f g :=
  List.foldl_hom (Search.map f g) fun middle arc =>
    relax_map maps middle direction step id label arc

theorem settle_map :
    (planner.withMaker other).settle direction step (search.map f g) =
      (planner.settle direction step search).map (fun progress => progress) (Search.map f g) := by
  unfold settle
  rw [Search.tree_map, SearchTree.pop?_map]
  cases (search.tree direction).pop? with
  | none => rfl
  | some taken =>
      obtain ⟨id, seen, tree⟩ := taken
      dsimp only [Option.map_some]
      rw [Search.withTree_map, SearchTree.label?_map]
      cases seen with
      | true => rfl
      | false =>
          cases tree.label? id with
          | none => rfl
          | some label =>
              dsimp only [Option.map_some]
              rw [expand_map maps, show ((search.withTree direction tree).map f g).isBeaten =
                (search.withTree direction tree).isBeaten from rfl,
                show (label.map f).weight = label.weight from rfl]
              split <;> rfl

/-- An advance does the same with either maker. -/
theorem advanceUnder_map :
    (planner.withMaker other).advanceUnder direction step (search.map f g) =
      (planner.advanceUnder direction step search).map (fun progress => progress)
        (Search.map f g) := by
  unfold advanceUnder
  rw [settle_map maps]
  generalize planner.settle direction step search = outcome
  obtain ⟨progress, after⟩ := outcome
  cases progress with
  | progressed => rfl
  | exhausted =>
      simp only [Prod.map, Search.tree_map, SearchTree.finish_map, Search.withTree_map]

theorem follow_map (steps : List (Step W)) :
    (planner.withMaker other).follow steps (search.map f g) =
      (planner.follow steps search).map f g := by
  induction steps generalizing search with
  | nil => rfl
  | cons step steps ih =>
      rw [follow, follow, advanceUnder_map maps]
      exact ih _

end Steps

section Seed

/-- Planting keeps the label that the maker makes for the root. -/
theorem plant_eq (planner : Planner W X S) (direction : Direction) (node : NodeId) (weight : W)
    (search : Search W X S) :
    let made := planner.maker.root search.makerState node weight direction
    planner.plant direction node weight search =
      { search.withTree direction ((search.tree direction).addRoot
          (if planner.isEdgeBased then none else some node) made.1) with
        makerState := made.2 } := rfl

variable (source target : NodeId) (sourceWeight targetWeight : W) (now : Nat)

include maps

theorem plant_map (direction : Direction) (node : NodeId) (weight : W) :
    (planner.withMaker other).plant direction node weight (search.map f g) =
      (planner.plant direction node weight search).map f g := by
  have made : (planner.withMaker other).maker.root (search.map f g).makerState node weight
      direction = _ := maps.root search.makerState node weight direction
  rw [plant_eq, plant_eq, made, Search.tree_map, Prod.map_fst, SearchTree.addRoot_map,
    Search.withTree_map]
  rfl

theorem planted_map :
    (planner.withMaker other).planted source sourceWeight target targetWeight now
        (search.map f g) =
      (planner.planted source sourceWeight target targetWeight now search).map f g := by
  have begun : { search.map f g with seeded := true, startedAt := some now } =
      Search.map f g { search with seeded := true, startedAt := some now } := rfl
  have sizes (side : Direction) : ((search.map f g).tree side).size = (search.tree side).size := by
    rw [Search.tree_map, SearchTree.size_map]
  unfold planted
  rw [begun, plant_map maps, plant_map maps, show (search.map f g).trees.forward.size = _ from
    sizes .forward, show (search.map f g).trees.backward.size = _ from sizes .backward]
  dsimp only
  generalize planner.plant .backward target targetWeight _ = both
  rw [show (planner.withMaker other).settings = planner.settings from rfl,
    show (both.map f g).isPinned = both.isPinned from rfl]
  split
  · cases planner.settings.stateKind with
    | nodeBased =>
        dsimp only
        split <;> rfl
    | edgeBased =>
        dsimp only
        split <;> rfl
  · rfl

theorem seed_map :
    (planner.withMaker other).seed source sourceWeight target targetWeight now (search.map f g) =
      (planner.seed source sourceWeight target targetWeight now search).map f g := by
  rw [seed_eq_follow, seed_eq_follow, planted_map maps]
  exact follow_map maps _ _

omit [Weight W] maps in
theorem check_map : (planner.withMaker other).check (search.map f g) = planner.check search := rfl

theorem start_map :
    (planner.withMaker other).start source sourceWeight target targetWeight now
        (search.map f g) =
      (planner.start source sourceWeight target targetWeight now search).map (Search.map f g) := by
  unfold start
  rw [check_map]
  cases planner.check search source target with
  | error fault => rfl
  | ok =>
      exact congrArg Except.ok (seed_map maps search source target sourceWeight targetWeight now)

end Seed

section Run

variable (clock : Clock)

include maps in
/-- Payloads do not show in the steps of a search. -/
theorem paces_map : Paces planner (planner.withMaker other) (Search.map f g) where
  finished search := search.finished_map f g
  turn _ := rfl
  follow steps search := follow_map maps search steps
  stop _ _ := rfl

include maps in
theorem run_map : (planner.withMaker other).run clock (search.map f g) =
    (planner.run clock search).map f g :=
  (paces_map maps).run_eq _ _ rfl fun _ _ _ => rfl

/-- Payloads do not show in a result. -/
theorem result_map :
    (planner.withMaker other).result (search.map f g) = planner.result search := by
  have between (ends : Sides LabelId) (weight : W) :
      Route.between? (planner.withMaker other).network (search.map f g).trees ends weight =
        Route.between? planner.network search.trees ends weight :=
    Route.between?_map f planner.network search.trees ends weight
  unfold result
  rw [Search.finished_map, show (search.map f g).best = search.best from rfl]
  simp only [between]

include maps in
theorem route_map (source target : NodeId) (sourceEdge targetEdge : Option EdgeId) :
    (planner.withMaker other).route source sourceEdge target targetEdge clock (search.map f g) =
      (planner.route source sourceEdge target targetEdge clock search).map (fun answer => answer)
        (Search.map f g) := by
  cases seeded : search.seeded with
  | true =>
      have seededToo : (search.map f g).seeded = true := seeded
      rw [route_again seeded, route_again seededToo]
      rfl
  | false =>
      have unseeded : (search.map f g).seeded = false := seeded
      have pinned : (search.map f g).withPins ⟨sourceEdge, targetEdge⟩ =
          (search.withPins ⟨sourceEdge, targetEdge⟩).map f g := rfl
      rw [route_eq seeded, route_eq unseeded, pinned]
      unfold routeWeighted
      rw [start_map maps]
      cases planner.start source Weight.zero target Weight.zero (clock 0)
          (search.withPins ⟨sourceEdge, targetEdge⟩) with
      | error fault => rfl
      | ok begun =>
          dsimp only [Except.map]
          rw [run_map maps, result_map]
          rfl

include maps in
theorem perform_map (call : Call W) :
    (planner.withMaker other).perform clock call (search.map f g) =
      (planner.perform clock call search).map (fun answer => answer) (Search.map f g) := by
  cases call with
  | start source sourceWeight target targetWeight =>
      dsimp only [perform]
      rw [start_map maps]
      cases planner.start source sourceWeight target targetWeight (clock 0) search <;> rfl
  | run =>
      dsimp only [perform]
      rw [run_map maps]
      rfl
  | advance direction =>
      dsimp only [perform, advance]
      rw [advanceUnder_map maps]
      rfl
  | result =>
      dsimp only [perform]
      rw [result_map]
      rfl
  | route source sourceEdge target targetEdge =>
      dsimp only [perform]
      rw [route_map maps]
      rfl
  | pin direction edge => rfl
  | restrict filter => rfl

include maps in
/-- Any calls do the same with either maker. -/
theorem performAll_map (calls : List (Call W)) :
    (planner.withMaker other).performAll clock calls (search.map f g) =
      (planner.performAll clock calls search).map (fun answers => answers) (Search.map f g) := by
  induction calls generalizing search with
  | nil => rfl
  | cons call calls ih =>
      dsimp only [performAll]
      rw [perform_map maps, Prod.map_snd, ih]
      rfl

end Run

section Taken

variable (clock : Clock)

include maps

/-- Steps take the same labels with either maker. -/
theorem taken_map (steps : List (Step W)) :
    (planner.withMaker other).taken steps (search.map f g) =
      (planner.taken steps search).map f := by
  induction steps generalizing search with
  | nil => rfl
  | cons step steps ih =>
      rw [taken, taken, Takings.map_append, Takings.map_own, Search.taking?_map,
        advanceUnder_map maps, Prod.map_snd, ih]

theorem takenBySeed_map (source target : NodeId) (sourceWeight targetWeight : W) (now : Nat) :
    (planner.withMaker other).takenBySeed source sourceWeight target targetWeight now
        (search.map f g) =
      (planner.takenBySeed source sourceWeight target targetWeight now search).map f := by
  unfold takenBySeed
  rw [planted_map maps]
  exact taken_map maps _ _

theorem takenByRun_map :
    (planner.withMaker other).takenByRun clock (search.map f g) =
      (planner.takenByRun clock search).map f := by
  obtain ⟨steps, taken, takenToo⟩ := (paces_map maps).takenByRun_eq search
    (search.map f g) rfl fun _ _ _ => rfl
  rw [taken, takenToo, taken_map maps]

theorem takenByCall_map (call : Call W) :
    (planner.withMaker other).takenByCall clock call (search.map f g) =
      (planner.takenByCall clock call search).map f := by
  cases call with
  | start source sourceWeight target targetWeight =>
      dsimp only [takenByCall]
      rw [check_map]
      cases planner.check search source target with
      | error fault => rfl
      | ok => exact takenBySeed_map maps search source target sourceWeight targetWeight (clock 0)
  | run => exact takenByRun_map maps search clock
  | advance direction => exact taken_map maps search _
  | result => rfl
  | route source sourceEdge target targetEdge =>
      have pinned : (search.map f g).withPins ⟨sourceEdge, targetEdge⟩ =
          (search.withPins ⟨sourceEdge, targetEdge⟩).map f g := rfl
      rw [takenByCall_route, takenByCall_route, pinned, check_map]
      cases planner.check (search.withPins ⟨sourceEdge, targetEdge⟩) source target with
      | error fault => rfl
      | ok =>
          dsimp only
          rw [takenBySeed_map maps, seed_map maps, takenByRun_map maps, Takings.map_append]
  | pin direction edge => rfl
  | restrict filter => rfl

theorem takenByAll_map (calls : List (Call W)) :
    (planner.withMaker other).takenByAll clock calls (search.map f g) =
      (planner.takenByAll clock calls search).map f := by
  induction calls generalizing search with
  | nil => rfl
  | cons call calls ih =>
      rw [takenByAll, takenByAll, takenByCall_map maps, perform_map maps, Prod.map_snd, ih,
        Takings.map_append]

end Taken

end Planner

end RouteSearch
