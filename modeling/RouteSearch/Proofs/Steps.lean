/-
This file says what the steps of a search do to it, whatever its numbers are.
-/

import RouteSearch.Search.Run

namespace RouteSearch

variable {W X S : Type}

namespace Search

@[simp] theorem tree_withTree (search : Search W X S) (direction : Direction)
    (tree : SearchTree W X) : (search.withTree direction tree).tree direction = tree :=
  Sides.get_set _ _ _

@[simp] theorem tree_opposite_withTree (search : Search W X S) (direction : Direction)
    (tree : SearchTree W X) : (search.withTree direction tree).tree direction.opposite =
      search.tree direction.opposite :=
  Sides.get_opposite_set _ _ _

theorem tree_of_set {search after : Search W X S} {direction : Direction} {tree : SearchTree W X}
    (trees : after.trees = search.trees.set direction tree) :
    after.tree direction = tree ∧
      after.tree direction.opposite = search.tree direction.opposite := by
  unfold Search.tree
  rw [trees]
  exact ⟨Sides.get_set _ _ _, Sides.get_opposite_set _ _ _⟩

@[simp] theorem withTree_withTree (search : Search W X S) (direction : Direction)
    (first second : SearchTree W X) :
    (search.withTree direction first).withTree direction second =
      search.withTree direction second := by
  cases direction <;> rfl

@[simp] theorem withTree_tree (search : Search W X S) (direction : Direction) :
    search.withTree direction (search.tree direction) = search := by
  cases direction <;> rfl

/-- Both directions count what a search has taken. -/
theorem visited_eq (search : Search W X S) (direction : Direction) : search.visited =
    (search.tree direction).visited + (search.tree direction.opposite).visited := by
  cases direction with
  | forward => rfl
  | backward => exact Nat.add_comm _ _

/-- A search has finished with one of its directions. -/
theorem finished_of_tree [Weight W] {search : Search W X S} (direction : Direction)
    (finished : (search.tree direction).finished = true) : search.finished = true := by
  unfold Search.finished
  cases direction with
  | forward =>
      rw [show search.trees.forward.finished = true from finished]
      rfl
  | backward =>
      rw [show search.trees.backward.finished = true from finished, Bool.or_true]
      rfl

/-- `after` differs from `search` in the tree of one direction, and in what a direction writes
down while it looks over arcs. -/
def Touches (direction : Direction) (search after : Search W X S) : Prop :=
  ∃ tree makerState updates best meetings, after =
    { search.withTree direction tree with
      makerState := makerState
      updates := updates
      best := best
      meetings := meetings }

namespace Touches

variable {search middle after : Search W X S} {direction : Direction}

theorem refl (direction : Direction) (search : Search W X S) : Touches direction search search :=
  ⟨search.tree direction, search.makerState, search.updates, search.best, search.meetings, by
    rw [withTree_tree]⟩

theorem trans (first : Touches direction search middle) (second : Touches direction middle after) :
    Touches direction search after := by
  obtain ⟨_, _, _, _, _, rfl⟩ := first
  obtain ⟨tree, makerState, updates, best, meetings, rfl⟩ := second
  exact ⟨tree, makerState, updates, best, meetings, by cases direction <;> rfl⟩

theorem withTree (direction : Direction) (search : Search W X S) (tree : SearchTree W X) :
    Touches direction search (search.withTree direction tree) :=
  ⟨tree, search.makerState, search.updates, search.best, search.meetings, rfl⟩

theorem there (touches : Touches direction search after) :
    after.tree direction.opposite = search.tree direction.opposite := by
  obtain ⟨_, _, _, _, _, rfl⟩ := touches
  exact Sides.get_opposite_set _ _ _

theorem filter (touches : Touches direction search after) : after.filter = search.filter := by
  obtain ⟨_, _, _, _, _, rfl⟩ := touches
  rfl

theorem pins (touches : Touches direction search after) : after.pins = search.pins := by
  obtain ⟨_, _, _, _, _, rfl⟩ := touches
  rfl

theorem seeded (touches : Touches direction search after) : after.seeded = search.seeded := by
  obtain ⟨_, _, _, _, _, rfl⟩ := touches
  rfl

theorem startedAt (touches : Touches direction search after) :
    after.startedAt = search.startedAt := by
  obtain ⟨_, _, _, _, _, rfl⟩ := touches
  rfl

end Touches

end Search

namespace Planner

/-- A search is used for one query only. -/
theorem unseeded_of_check {planner : Planner W X S} {search : Search W X S}
    {source target : NodeId} (checked : planner.check search source target = .ok ()) :
    search.seeded = false := by
  cases seeded : search.seeded with
  | false => rfl
  | true =>
      rw [check, if_pos seeded] at checked
      cases checked

variable [Weight W] {planner : Planner W X S} {direction : Direction}
  {step : Option (ArcFilter W)} {id : LabelId} {label : Label W X} {search : Search W X S}
  {arc : Arc W}

/-- Looking for a meeting changes the best meeting at most. -/
theorem meet_eq (planner : Planner W X S) (direction : Direction) (arc : Arc W) (id : LabelId)
    (search : Search W X S) : ∃ best meetings, planner.meet direction arc id search =
      { search with best := best, meetings := meetings } := by
  have proposed (here there : LabelId) (weight : W) : ∃ best meetings,
      search.propose direction here there weight =
        { search with best := best, meetings := meetings } := by
    unfold Search.propose
    split
    · exact ⟨_, _, rfl⟩
    · exact ⟨_, _, rfl⟩
  unfold meet
  dsimp only
  split
  · exact ⟨_, _, rfl⟩
  · split
    · split
      · exact proposed _ _ _
      · exact ⟨_, _, rfl⟩
      · exact proposed _ _ _
    · exact ⟨_, _, rfl⟩

/-- A new best meeting is one of a label under the id, or of its parent, with the label that the
other tree has for the same state. -/
theorem meet_proposes (planner : Planner W X S) (direction : Direction) (arc : Arc W)
    (id : LabelId) (search : Search W X S) :
    (planner.meet direction arc id search).best = search.best ∨
    ∃ here there label opposite weight,
      (search.tree direction.opposite).lookup? (planner.settings.stateKind.key arc direction) =
        some there ∧
      (search.tree direction).label? id = some label ∧
      (search.tree direction.opposite).label? there = some opposite ∧
      (planner.meet direction arc id search).best =
        some ⟨.oriented direction here there, weight⟩ ∧
      (planner.settings.stateKind = .nodeBased ∧ here = id ∧
          weight = label.weight + opposite.weight ∨
        planner.settings.stateKind = .edgeBased ∧ label.parent = some here ∧
          weight = label.weight + opposite.weight - planner.pricing.cost arc direction noEdge) := by
  have proposed (here there : LabelId) (weight : W) :
      (search.propose direction here there weight).best = search.best ∨
        (search.propose direction here there weight).best =
          some ⟨.oriented direction here there, weight⟩ := by
    unfold Search.propose
    split
    · exact .inr rfl
    · exact .inl rfl
  unfold meet
  dsimp only
  split
  · exact .inl rfl
  · rename_i there found
    split
    · rename_i label opposite atId atThere
      split
      · rename_i kind
        refine (proposed id there _).imp_right fun best => ?_
        exact ⟨id, there, label, opposite, _, found, atId, atThere, best, .inl ⟨kind, rfl, rfl⟩⟩
      · exact .inl rfl
      · rename_i parent kind isParent
        refine (proposed parent there _).imp_right fun best => ?_
        exact ⟨parent, there, label, opposite, _, found, atId, atThere, best,
          .inr ⟨kind, isParent, rfl⟩⟩
    · exact .inl rfl

theorem trees_met (planner : Planner W X S) (direction : Direction) (arc : Arc W) (id : LabelId)
    (search : Search W X S) :
    (if planner.settings.tracksMeeting then planner.meet direction arc id search
      else search).trees = search.trees := by
  split
  · obtain ⟨best, meetings, met⟩ := planner.meet_eq direction arc id search
    rw [met]
  · rfl

/-- Looking over an arc changes nothing, or writes down a label and looks for a meeting. -/
theorem relax_eq (planner : Planner W X S) (direction : Direction) (step : Option (ArcFilter W))
    (id : LabelId) (label : Label W X) (search : Search W X S) (arc : Arc W) :
    planner.relax direction step id label search arc = search ∨ ∃ written mid,
      planner.admits search step label.edge arc = true ∧
      Weight.isInfinite (planner.reachWeight direction label arc) = false ∧
      planner.record direction id arc (planner.reachWeight direction label arc) search =
        some (written, mid) ∧
      planner.relax direction step id label search arc =
        if planner.settings.tracksMeeting then planner.meet direction arc written mid else mid := by
  unfold relax
  split
  · rename_i admitted
    dsimp only
    split
    · exact .inl rfl
    · rename_i bounded
      cases recorded : planner.record direction id arc (planner.reachWeight direction label arc)
          search with
      | none => exact .inl rfl
      | some pair => exact .inr ⟨pair.1, pair.2, admitted, Bool.eq_false_iff.mpr bounded, rfl, rfl⟩
  · exact .inl rfl

/-- A way to a new state is written down in a new label. -/
theorem record_of_unknown {parent : LabelId} {weight : W}
    (unknown : (search.tree direction).lookup?
      (planner.settings.stateKind.key arc direction) = none) :
    let made := planner.maker.create search.makerState arc weight parent direction
    planner.record direction parent arc weight search =
      some ((search.tree direction).size,
        { search.withTree direction ((search.tree direction).add
            (some (planner.settings.stateKind.key arc direction)) made.1) with
          makerState := made.2 }) := by
  unfold record
  dsimp only
  rw [unknown]

/-- A way to a known state overwrites its label if it is cheaper. -/
theorem record_of_known {parent known : LabelId} {held : Label W X} {weight : W}
    (found : (search.tree direction).lookup?
      (planner.settings.stateKind.key arc direction) = some known)
    (atKnown : (search.tree direction).label? known = some held) :
    let made := planner.maker.update search.makerState held arc weight parent direction
    planner.record direction parent arc weight search =
      if Weight.less weight held.weight then
        some (known,
          { search.withTree direction
              (((search.tree direction).setLabel known made.1).reopen known) with
            makerState := made.2
            updates := search.updates + 1 })
      else none := by
  unfold record
  dsimp only
  rw [found]
  dsimp only
  rw [atKnown]

/-- A state whose label is missing is left alone. -/
theorem record_of_missing {parent known : LabelId} {weight : W}
    (found : (search.tree direction).lookup?
      (planner.settings.stateKind.key arc direction) = some known)
    (missing : (search.tree direction).label? known = none) :
    planner.record direction parent arc weight search = none := by
  unfold record
  dsimp only
  rw [found]
  dsimp only
  rw [missing]

theorem record_touches {parent written : LabelId} {weight : W} {mid : Search W X S}
    (recorded : planner.record direction parent arc weight search = some (written, mid)) :
    search.Touches direction mid := by
  unfold record at recorded
  dsimp only at recorded
  split at recorded
  · cases recorded
    exact ⟨_, _, _, _, _, rfl⟩
  · split at recorded
    · cases recorded
    · split at recorded
      · cases recorded
        exact ⟨_, _, _, _, _, rfl⟩
      · cases recorded

theorem record_best {parent written : LabelId} {weight : W} {mid : Search W X S}
    (recorded : planner.record direction parent arc weight search = some (written, mid)) :
    mid.best = search.best := by
  unfold record at recorded
  dsimp only at recorded
  split at recorded
  · cases recorded
    rfl
  · split at recorded
    · cases recorded
    · split at recorded
      · cases recorded
        rfl
      · cases recorded

/-- To write a label down is no visit. -/
theorem record_visited {parent written : LabelId} {weight : W} {mid : Search W X S}
    (recorded : planner.record direction parent arc weight search = some (written, mid)) :
    (mid.tree direction).visited = (search.tree direction).visited := by
  unfold record at recorded
  dsimp only at recorded
  split at recorded
  · cases recorded
    rw [(Search.tree_of_set rfl).1]
    rfl
  · split at recorded
    · cases recorded
    · split at recorded
      · cases recorded
        rw [(Search.tree_of_set rfl).1, SearchTree.reopen]
        split <;> rfl
      · cases recorded

theorem relax_visited (planner : Planner W X S) (direction : Direction)
    (step : Option (ArcFilter W)) (id : LabelId) (label : Label W X) (search : Search W X S)
    (arc : Arc W) :
    ((planner.relax direction step id label search arc).tree direction).visited =
      (search.tree direction).visited := by
  rcases planner.relax_eq direction step id label search arc with
    same | ⟨written, mid, _, _, recorded, relaxed⟩
  · rw [same]
  · rw [relaxed, Search.tree, trees_met]
    exact record_visited recorded

theorem relax_touches (planner : Planner W X S) (direction : Direction)
    (step : Option (ArcFilter W)) (id : LabelId) (label : Label W X) (search : Search W X S)
    (arc : Arc W) :
    search.Touches direction (planner.relax direction step id label search arc) := by
  rcases planner.relax_eq direction step id label search arc with
    same | ⟨written, mid, _, _, recorded, relaxed⟩
  · rw [same]
    exact .refl direction search
  · rw [relaxed]
    split
    · obtain ⟨tree, makerState, updates, _, _, rfl⟩ := record_touches recorded
      obtain ⟨best, meetings, met⟩ := planner.meet_eq direction arc written _
      rw [met]
      exact ⟨tree, makerState, updates, best, meetings, rfl⟩
    · exact record_touches recorded

/-- What the relaxations keep, an expansion keeps. -/
theorem expand_keeps {P : Search W X S → Prop}
    (relaxed : ∀ search arc, arc ∈ planner.network.arcs label.node → P search →
      P (planner.relax direction step id label search arc)) (holds : P search) :
    P (planner.expand direction step id label search) := by
  have along (arcs : List (Arc W)) (members : ∀ arc ∈ arcs, arc ∈ planner.network.arcs label.node)
      (search : Search W X S) (holds : P search) :
      P (arcs.foldl (planner.relax direction step id label) search) := by
    induction arcs generalizing search with
    | nil => exact holds
    | cons arc rest ih =>
        exact ih (fun other member => members other (List.mem_cons_of_mem arc member)) _
          (relaxed search arc (members arc List.mem_cons_self) holds)
  exact along _ (fun _ member => member) search holds

theorem expand_touches (planner : Planner W X S) (direction : Direction)
    (step : Option (ArcFilter W)) (id : LabelId) (label : Label W X) (search : Search W X S) :
    search.Touches direction (planner.expand direction step id label search) :=
  expand_keeps (fun middle arc _ touches =>
    touches.trans (planner.relax_touches direction step id label middle arc)) (.refl _ _)

theorem expand_visited (planner : Planner W X S) (direction : Direction)
    (step : Option (ArcFilter W)) (id : LabelId) (label : Label W X) (search : Search W X S) :
    ((planner.expand direction step id label search).tree direction).visited =
      (search.tree direction).visited :=
  expand_keeps (P := fun after => (after.tree direction).visited = (search.tree direction).visited)
    (fun middle arc _ same =>
      (planner.relax_visited direction step id label middle arc).trans same) rfl

/-- The ways in which an advance may turn out. -/
inductive Advances (planner : Planner W X S) (direction : Direction)
    (step : Option (ArcFilter W)) (search : Search W X S) : Progress × Search W X S → Prop
  /-- No label is open. -/
  | stuck (empty : (search.tree direction).pop? = none) :
      Advances planner direction step search
        (.exhausted, search.withTree direction ((search.tree direction).finish true))
  /-- The label was taken before. -/
  | passed {id seen tree} (popped : (search.tree direction).pop? = some (id, seen, tree))
      (idle : seen = true ∨ tree.label? id = none) :
      Advances planner direction step search (.progressed, search.withTree direction tree)
  /-- The best meeting beats the label. -/
  | stopped {id tree label} (popped : (search.tree direction).pop? = some (id, false, tree))
      (atId : tree.label? id = some label) (beaten : search.isBeaten label.weight = true) :
      Advances planner direction step search
        (.exhausted, search.withTree direction (tree.finish true))
  /-- The label is looked from. -/
  | expanded {id tree label} (popped : (search.tree direction).pop? = some (id, false, tree))
      (atId : tree.label? id = some label) (unbeaten : search.isBeaten label.weight = false) :
      Advances planner direction step search
        (.progressed, planner.expand direction step id label (search.withTree direction tree))

theorem advances (planner : Planner W X S) (direction : Direction) (step : Option (ArcFilter W))
    (search : Search W X S) :
    planner.Advances direction step search (planner.advanceUnder direction step search) := by
  unfold advanceUnder settle
  cases pops : (search.tree direction).pop? with
  | none => exact .stuck pops
  | some triple =>
      obtain ⟨id, seen, tree⟩ := triple
      dsimp only
      cases seen with
      | true => exact .passed pops (.inl rfl)
      | false =>
          cases atId : tree.label? id with
          | none => exact .passed pops (.inr atId)
          | some label =>
              dsimp only
              cases beaten : (search.withTree direction tree).isBeaten label.weight with
              | true =>
                  rw [if_pos rfl]
                  dsimp only
                  rw [Search.withTree_withTree, Search.tree_withTree]
                  exact .stopped pops atId beaten
              | false =>
                  rw [if_neg Bool.false_ne_true]
                  exact .expanded pops atId beaten

/-- A direction without open labels is finished. -/
theorem advanceUnder_of_stuck (step : Option (ArcFilter W))
    (empty : (search.tree direction).pop? = none) :
    planner.advanceUnder direction step search =
      (.exhausted, search.withTree direction ((search.tree direction).finish true)) := by
  rw [advanceUnder, settle, empty]

theorem advanceUnder_touches (planner : Planner W X S) (direction : Direction)
    (step : Option (ArcFilter W)) (search : Search W X S) :
    search.Touches direction (planner.advanceUnder direction step search).2 := by
  have advances := planner.advances direction step search
  generalize planner.advanceUnder direction step search = outcome at advances ⊢
  cases advances with
  | stuck empty => exact .withTree _ _ _
  | passed popped idle => exact .withTree _ _ _
  | stopped popped atId beaten => exact .withTree _ _ _
  | expanded popped atId unbeaten =>
      exact (Search.Touches.withTree _ _ _).trans (planner.expand_touches _ _ _ _ _)

/-- An answer is read from the best meeting. -/
theorem result_eq_some {route : Route W} (answer : planner.result search = .ok (some route)) :
    ∃ meeting, search.best = some meeting ∧ Weight.isFinite meeting.weight = true ∧
      Route.between? planner.network search.trees meeting.ends meeting.weight = some route := by
  unfold result at answer
  split at answer
  · rename_i meeting _ isBest
    split at answer
    · rename_i finite
      split at answer
      · cases answer
      · rename_i read
        cases answer
        exact ⟨meeting, isBest, finite, read⟩
    · cases answer
  · cases answer

/-- What a query has to fulfil to be let through. -/
theorem start_eq_ok {source target : NodeId} {sourceWeight targetWeight : W} {now : Nat}
    {begun : Search W X S}
    (accepted : planner.start source sourceWeight target targetWeight now search = .ok begun) :
    begun = planner.seed source sourceWeight target targetWeight now search ∧
      planner.check search source target = .ok () := by
  unfold start at accepted
  cases checked : planner.check search source target with
  | error fault =>
      rw [checked] at accepted
      cases accepted
  | ok =>
      rw [checked] at accepted
      cases accepted
      exact ⟨rfl, rfl⟩

/-- A query that fulfils it is let through. -/
theorem start_of_check {source target : NodeId} {sourceWeight targetWeight : W}
    (checked : planner.check search source target = .ok ()) (now : Nat) :
    planner.start source sourceWeight target targetWeight now search =
      .ok (planner.seed source sourceWeight target targetWeight now search) := by
  rw [start, checked]
  rfl

end Planner

end RouteSearch
