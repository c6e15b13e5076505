/-
This file proves how a search calls its label maker: once for each label, and once for each cheaper
way to a known state.
-/

import RouteSearch.Search.MakerCalls
import RouteSearch.Proofs.Answer
import RouteSearch.Proofs.Course
import RouteSearch.Proofs.Payload

namespace RouteSearch

variable {W X S : Type}

namespace SearchTree

variable (tree : SearchTree W X) (id : LabelId) (label : Label W X)

theorem getElem?_labels : tree.labels[id]? = tree.label? id := by
  simp [labels, label?]

theorem labels_setLabel : (tree.setLabel id label).labels = tree.labels.set id label := by
  apply List.ext_getElem?
  intro place
  have size : tree.labels.length = tree.kept.size := by simp [labels]
  rw [getElem?_labels, List.getElem?_set, getElem?_labels, size]
  unfold label? setLabel
  rw [Array.getElem?_modify]
  by_cases same : id = place
  · subst same
    rw [if_pos rfl, if_pos rfl]
    by_cases inside : id < tree.kept.size
    · rw [if_pos inside, Array.getElem?_eq_getElem inside]
      rfl
    · rw [if_neg inside, Array.getElem?_eq_none (Nat.le_of_not_lt inside)]
      rfl
  · rw [if_neg same, if_neg same]

variable [Weight W]

theorem labels_add (key : Option StateKey) :
    (tree.add key label).labels = tree.labels ++ [label] := by
  simp [labels, add]

theorem labels_addRoot (key : Option StateKey) :
    (tree.addRoot key label).labels = tree.labels ++ [label] :=
  tree.labels_add label key

theorem labels_reopen : (tree.reopen id).labels = tree.labels := by
  unfold reopen
  cases tree.label? id <;> rfl

variable {tree} in
theorem labels_pop? {id : LabelId} {seen : Bool} {after : SearchTree W X}
    (popped : tree.pop? = some (id, seen, after)) : after.labels = tree.labels := by
  apply List.ext_getElem?
  intro place
  rw [getElem?_labels, getElem?_labels]
  exact (pop?_keeps popped).1 place

end SearchTree

/-- The calls that were noted have made all labels of a search, and its updates are counted. -/
structure Search.Noted [Weight W] (search : Search W X (S × List (MakerCall W X))) : Prop where
  fill : ∀ direction, MakerCall.Fill direction search.makerState.2 (search.tree direction).labels
  updates : search.makerState.2.countP (·.isUpdate) = search.updates

namespace Search.Noted

variable [Weight W] {search after : Search W X (S × List (MakerCall W X))} {direction : Direction}

/-- Only labels, calls and the count of updates matter. -/
theorem congr (noted : search.Noted) (state : after.makerState = search.makerState)
    (updates : after.updates = search.updates)
    (labels : ∀ side, (after.tree side).labels = (search.tree side).labels) : after.Noted where
  fill side := by
    rw [state, labels]
    exact noted.fill side
  updates := by
    rw [state, updates]
    exact noted.updates

theorem withTree (noted : search.Noted) {tree : SearchTree W X}
    (labels : tree.labels = (search.tree direction).labels) :
    (search.withTree direction tree).Noted := by
  refine noted.congr rfl rfl fun side => ?_
  rcases Direction.eq_or_opposite direction side with rfl | rfl
  · rw [tree_withTree, labels]
  · rw [tree_opposite_withTree]

/-- A call of one direction leaves the labels of the other one as they were. -/
theorem call (noted : search.Noted) (call : MakerCall W X) (state : S) {tree : SearchTree W X}
    (fill : MakerCall.Fill call.direction (search.makerState.2 ++ [call]) tree.labels) :
    Noted { search.withTree call.direction tree with
      makerState := (state, search.makerState.2 ++ [call])
      updates := search.updates + call.isUpdate.toNat } where
  fill side := by
    change MakerCall.Fill side _ ((search.withTree call.direction tree).tree side).labels
    rcases Direction.eq_or_opposite call.direction side with rfl | rfl
    · rw [tree_withTree]
      exact fill
    · rw [tree_opposite_withTree]
      exact .elsewhere (noted.fill _) (Direction.opposite_opposite _).symm
  updates := by
    rw [List.countP_append, noted.updates, List.countP_singleton]
    cases call.isUpdate <;> rfl

variable {planner : Planner W X S}

/-- A way that is written down is made by one call. -/
theorem record (noted : search.Noted) {parent written : LabelId} {arc : Arc W} {weight : W}
    (recorded : planner.noting.record direction parent arc weight search = some (written, after)) :
    after.Noted := by
  cases found : (search.tree direction).lookup?
      (planner.noting.settings.stateKind.key arc direction) with
  | none =>
      rw [Planner.record_of_unknown found] at recorded
      cases recorded
      refine noted.call (.create arc weight parent direction _) _ ?_
      rw [SearchTree.labels_add]
      exact .create arc weight parent _ (noted.fill direction)
  | some known =>
      cases atKnown : (search.tree direction).label? known with
      | none =>
          rw [Planner.record_of_missing found atKnown] at recorded
          cases recorded
      | some held =>
          rw [Planner.record_of_known found atKnown] at recorded
          split at recorded
          · rename_i less
            cases recorded
            refine noted.call (.update held arc weight parent direction _) _ ?_
            rw [SearchTree.labels_reopen, SearchTree.labels_setLabel]
            refine .update arc parent _ (noted.fill direction) ?_ less
            rw [SearchTree.getElem?_labels]
            exact atKnown
          · cases recorded

theorem relax (noted : search.Noted) (step : Option (ArcFilter W)) (id : LabelId)
    (label : Label W X) (arc : Arc W) :
    (planner.noting.relax direction step id label search arc).Noted := by
  rcases planner.noting.relax_eq direction step id label search arc with
    same | ⟨written, mid, _, _, recorded, relaxed⟩
  · rw [same]
    exact noted
  · rw [relaxed]
    split
    · obtain ⟨best, meetings, met⟩ := planner.noting.meet_eq direction arc written mid
      rw [met]
      exact (noted.record recorded).congr rfl rfl fun _ => rfl
    · exact noted.record recorded

theorem advance (noted : search.Noted) (step : Option (ArcFilter W)) :
    (planner.noting.advanceUnder direction step search).2.Noted := by
  have advances := planner.noting.advances direction step search
  generalize planner.noting.advanceUnder direction step search = outcome at advances ⊢
  cases advances with
  | stuck empty => exact noted.withTree rfl
  | passed popped idle => exact noted.withTree (SearchTree.labels_pop? popped)
  | stopped popped atId beaten =>
      have kept := SearchTree.labels_pop? popped
      exact noted.withTree kept
  | expanded popped atId unbeaten =>
      exact Planner.expand_keeps (P := Noted) (fun _ arc _ noted => noted.relax step _ _ arc)
        (noted.withTree (SearchTree.labels_pop? popped))

theorem plant (planner : Planner W X S) (noted : search.Noted) (direction : Direction)
    (node : NodeId) (weight : W) : (planner.noting.plant direction node weight search).Noted := by
  refine noted.call (.root node weight direction _) _ ?_
  rw [SearchTree.labels_addRoot]
  exact .root node weight _ (noted.fill direction)

theorem planted (noted : search.Noted) (source target : NodeId) (sourceWeight targetWeight : W)
    (now : Nat) :
    (planner.noting.planted source sourceWeight target targetWeight now search).Noted := by
  have begun : Noted { search with seeded := true, startedAt := some now } :=
    noted.congr rfl rfl fun _ => rfl
  have both := (begun.plant planner .forward source sourceWeight).plant planner .backward target
    targetWeight
  unfold Planner.planted
  dsimp only
  generalize planner.noting.plant .backward target targetWeight _ = after at both ⊢
  split
  · split
    · split
      · exact both.congr rfl rfl fun _ => rfl
      · exact both
    · split
      · exact both
      · refine both.congr rfl rfl fun side => ?_
        rw [tree, Sides.get_map]
        rfl
  · exact both

end Search.Noted

section Course

variable [Weight W] {planner : Planner W X S} {makerState : S}

/-- The calls that are noted along a course have made all labels. -/
theorem Planner.Course.noted {takings : Takings W X}
    {search : Search W X (S × List (MakerCall W X))}
    (course : planner.noting.Course (.fresh (makerState, [])) takings search) : search.Noted := by
  induction course with
  | start => exact ⟨fun direction => by cases direction <;> exact .nothing, rfl⟩
  | plant sourceWeight targetWeight now before accepted ih =>
      exact ih.planted _ _ sourceWeight targetWeight now
  | advance direction step before ih => exact ih.advance step
  | aside filter pins startedAt limit before ih => exact ih.congr rfl rfl fun _ => rfl

/-- A direction has as many labels as calls have made new ones for it. -/
theorem MakerCall.Fill.countP {direction : Direction} {calls : List (MakerCall W X)}
    {labels : List (Label W X)} (fill : MakerCall.Fill direction calls labels) :
    calls.countP (·.isNewFor direction) = labels.length := by
  induction fill with
  | nothing => rfl
  | root node weight made before ih =>
      rw [List.countP_append, ih, List.length_append]
      simp [isNewFor, isUpdate, MakerCall.direction]
  | create arc weight parent made before ih =>
      rw [List.countP_append, ih, List.length_append]
      simp [isNewFor, isUpdate, MakerCall.direction]
  | update arc parent made before atId less ih =>
      rw [List.countP_append, ih, List.length_set]
      rfl
  | elsewhere before other ih =>
      rw [List.countP_append, ih, List.countP_singleton, isNewFor, other]
      cases direction <;> simp [Direction.opposite]

end Course

/-- Noting calls changes nothing else. -/
theorem LabelMaker.noting_maps (maker : LabelMaker W X S) :
    LabelMaker.Maps id Prod.fst maker.noting maker where
  root _ _ _ _ := rfl
  create _ _ _ _ _ := rfl
  update _ _ _ _ _ _ := rfl

theorem SearchTree.labels_map_id (tree : SearchTree W X) : (tree.map id).labels = tree.labels := by
  simp [labels, map, Kept.map, Label.map, Function.comp_def]

section Calls

variable [Weight W] {planner : Planner W X S} (makerState : S) (clock other : Clock)
  (calls : List (Call W))

/-- Without payloads any calls do the same, also at another time. -/
theorem Planner.performAll_plain (maker : planner.maker.Lawful)
    (noTime : planner.settings.timeoutMs = none) :
    ∃ startedAt,
      (planner.withMaker .plain).performAll other calls (.fresh ()) =
        ((planner.performAll clock calls (.fresh makerState)).1,
          ((planner.performAll clock calls (.fresh makerState)).2.map (fun _ => ())
            fun _ => ()).startedFrom startedAt) ∧
      (planner.withMaker .plain).takenByAll other calls (.fresh ()) =
        (planner.takenByAll clock calls (.fresh makerState)).map fun _ => () := by
  have same := performAll_map maker.maps (.fresh makerState) clock calls
  have sameTaken := takenByAll_map maker.maps (.fresh makerState) clock calls
  rw [Search.fresh_map] at same sameTaken
  have untimed : (planner.withMaker (.plain : LabelMaker W Unit Unit)).settings.timeoutMs = none :=
    noTime
  obtain ⟨startedAt, anytime, takenAnytime⟩ :=
    performAll_startedFrom untimed clock other (.fresh ()) none calls
  rw [same] at anytime
  exact ⟨startedAt, anytime, takenAnytime.trans sameTaken⟩

/-- A maker that notes its calls is called in any calls as it is without notes. -/
theorem Planner.performAll_noting :
    let noted := planner.noting.performAll clock calls (.fresh (makerState, []))
    noted.1 = (planner.performAll clock calls (.fresh makerState)).1 ∧
      noted.2.map id Prod.fst = (planner.performAll clock calls (.fresh makerState)).2 ∧
      noted.2.Noted := by
  have maps : LabelMaker.Maps id Prod.fst planner.noting.maker planner.maker :=
    planner.maker.noting_maps
  have same := performAll_map maps (.fresh (makerState, [])) clock calls
  rw [Search.fresh_map] at same
  have outcome : planner.performAll clock calls (.fresh makerState) = _ := same
  rw [outcome]
  exact ⟨rfl, rfl, (Course.start.performAll clock calls).noted⟩

end Calls

/-- Whatever is called, payloads do not matter to a search. Without a limit on time, it gives the
same answers as the search without payloads, takes the same labels in the same order, and is left
as that one but for the payloads, the state of its maker and the time of its start. It calls its
maker once for each new label, in the order of the ids of each direction, and once for each update,
which overwrites a label of the same direction by a cheaper way. -/
theorem payload_changes_nothing [Weight W] {planner : Planner W X S}
    (maker : planner.maker.Lawful) (noTime : planner.settings.timeoutMs = none) (makerState : S)
    (clock other : Clock) (calls : List (Call W)) :
    let outcome := planner.performAll clock calls (.fresh makerState)
    let plain := (planner.withMaker .plain).performAll other calls (.fresh ())
    let noted := planner.noting.performAll clock calls (.fresh (makerState, []))
    (plain.1 = outcome.1 ∧
      (∃ startedAt, plain.2 = (outcome.2.map (fun _ => ()) fun _ => ()).startedFrom startedAt) ∧
      (planner.withMaker .plain).takenByAll other calls (.fresh ()) =
        (planner.takenByAll clock calls (.fresh makerState)).map fun _ => ()) ∧
    (noted.1 = outcome.1 ∧ noted.2.map id Prod.fst = outcome.2 ∧
      (∀ direction,
        MakerCall.Fill direction noted.2.makerState.2 (outcome.2.tree direction).labels ∧
        noted.2.makerState.2.countP (·.isNewFor direction) = (outcome.2.tree direction).size) ∧
      noted.2.makerState.2.countP (·.isUpdate) = outcome.2.updates) := by
  intro outcome plain noted
  obtain ⟨startedAt, isPlain, taken⟩ :=
    planner.performAll_plain makerState clock other calls maker noTime
  obtain ⟨sameAnswers, sameSearch, isNoted⟩ := planner.performAll_noting makerState clock calls
  refine ⟨⟨congrArg Prod.fst isPlain, ⟨startedAt, congrArg Prod.snd isPlain⟩, taken⟩, sameAnswers,
    sameSearch, fun direction => ?_, ?_⟩
  · have labels : (outcome.2.tree direction).labels = (noted.2.tree direction).labels := by
      dsimp only [outcome]
      rw [← sameSearch, Search.tree_map, SearchTree.labels_map_id]
    have fill := isNoted.fill direction
    refine ⟨labels ▸ fill, fill.countP.trans ?_⟩
    rw [← labels]
    simp [SearchTree.labels, SearchTree.size]
  · rw [isNoted.updates]
    exact congrArg Search.updates sameSearch

/-- Over the two streets, labels that carry their trace lead to the answer that plain labels lead
to, and both directions make as many of them. -/
theorem payload_changes_nothing_streets :
    let traced := Planner.overStreets.withMaker .traced
    let calls := [.pin .forward (some 0), .route 0 none 2 (some 1), .run]
    let outcome := traced.performAll (fun _ => 0) calls (.fresh ())
    let noted := traced.noting.performAll (fun _ => 0) calls (.fresh ((), []))
    (Planner.overStreets.performAll id calls (.fresh ())).1 = outcome.1 ∧
      outcome.1 = [.done, .route (some ⟨.finite 157, .finite 150, [0, 1, 2], [0, 1]⟩), .done] ∧
      ∀ direction,
        MakerCall.Fill direction noted.2.makerState.2 (outcome.2.tree direction).labels ∧
        noted.2.makerState.2.countP (·.isNewFor direction) = (outcome.2.tree direction).size := by
  intro traced calls outcome noted
  obtain ⟨⟨same, _⟩, _, _, filled, _⟩ :=
    @payload_changes_nothing _ _ _ _ traced LabelMaker.traced_lawful rfl () (fun _ => 0) id calls
  refine ⟨same, ?_, filled⟩
  cbv

end RouteSearch
