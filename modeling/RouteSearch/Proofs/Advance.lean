/-
This file follows a search through its advances: each settles a label and expands it, or finds
that its direction is exhausted.
-/

import RouteSearch.Proofs.Underway

namespace RouteSearch

variable {X S : Type} {planner : Planner Exact X S} {query : Query} {search : Search Exact X S}
  {direction : Direction} {step : Option (ArcFilter Exact)} {id : LabelId}
  {label : Label Exact X} {value : Rat}

/-- Looking over all arcs at a label's node leaves none to look over. -/
theorem Underway.expand (lawful : planner.Lawful) {arcs : List (Arc Exact)}
    (underway : Underway planner query (arcsFrom direction id arcs) search)
    (closed : (search.tree direction).Holds id label true)
    (isLast : (search.tree direction).last = some id)
    (notFinished : (search.tree direction).finished = false)
    (fits : StepFits query direction step label)
    (members : ∀ arc ∈ arcs, arc ∈ planner.network.arcs label.node) :
    Underway planner query noArc (arcs.foldl (planner.relax direction step id label) search) ∧
      search.Extends (arcs.foldl (planner.relax direction step id label) search) ∧
      Search.Frames direction search
        (arcs.foldl (planner.relax direction step id label) search) := by
  induction arcs generalizing search with
  | nil =>
      refine ⟨underway.weaken ?_, .refl _, .refl _ _⟩
      rintro _ _ _ ⟨_, _, member⟩
      cases member
  | cons arc rest ih =>
      obtain ⟨first, extends_, frames⟩ := underway.relax lawful closed isLast notFinished fits
        (members arc List.mem_cons_self)
      obtain ⟨all, extendsAll, framesAll⟩ := ih first
        ((extends_.grows direction).settled closed) (frames.last.trans isLast)
        (frames.finished.trans notFinished)
        fun other member => members other (List.mem_cons_of_mem _ member)
      exact ⟨all, extends_.trans extendsAll, frames.trans framesAll⟩

/-- Only the labels and the indices of the trees bear on the best meeting. -/
theorem Met.congr {after : Search Exact X S} (met : Met planner query search)
    (best : after.best = search.best)
    (lookups : ∀ side key, (after.tree side).lookup? key = (search.tree side).lookup? key)
    (labels : ∀ side id, (after.tree side).label? id = (search.tree side).label? id) :
    Met planner query after ∧ search.Improves after := by
  have improves : search.Improves after := .inl ⟨best, fun _ _ side => labels side _⟩
  refine ⟨⟨fun tracks key ids weight joins => ?_, fun isBest => ?_⟩, improves⟩
  · exact improves.beats (met.least tracks
      (joins.congr (fun side => (lookups side key).symm) fun side => (labels side _).symm))
  · refine (met.best (best ▸ isBest)).imp_right ?_
    rintro ⟨tracks, key, ids, weight, joins, isWeight, meetsAt⟩
    exact ⟨tracks, key, ids, weight,
      joins.congr (fun side => lookups side key) fun side => labels side _, isWeight,
      meetsAt.congr fun side => labels side _⟩

/-- A tree joins the other one as before if its labels and its index stay. -/
theorem Met.withTree (met : Met planner query search) (direction : Direction)
    (tree : SearchTree Exact X)
    (lookups : ∀ key, tree.lookup? key = (search.tree direction).lookup? key)
    (labels : ∀ id, tree.label? id = (search.tree direction).label? id) :
    Met planner query (search.withTree direction tree) ∧
      search.Improves (search.withTree direction tree) := by
  refine met.congr rfl (fun side key => ?_) fun side other => ?_
  · rcases Direction.eq_or_opposite direction side with rfl | rfl
    · rw [Search.tree_withTree, lookups]
    · rw [Search.tree_opposite_withTree]
  · rcases Direction.eq_or_opposite direction side with rfl | rfl
    · rw [Search.tree_withTree, labels]
    · rw [Search.tree_opposite_withTree]

/-- A label that was just settled waits to be looked from over all its arcs. -/
theorem Underway.take (underway : Underway planner query noArc search) {bound : Rat}
    {tree : SearchTree Exact X} (ordered : (search.tree direction).Ordered bound)
    (takes : (search.tree direction).Takes id label tree) (isValue : label.weight = .finite value)
    (dearer : bound ≤ value) (orderedAfter : tree.Ordered value) :
    Underway planner query (arcsFrom direction id (planner.network.arcs label.node))
        (search.withTree direction tree) ∧
      search.Extends (search.withTree direction tree) := by
  obtain ⟨met, improves⟩ := underway.met.withTree direction tree takes.lookup? takes.label?
  have extends_ : search.Extends (search.withTree direction tree) := by
    refine ⟨fun side => ?_, improves⟩
    rcases Direction.eq_or_opposite direction side with rfl | rfl
    · rw [Search.tree_withTree]
      exact ordered.grows_take takes isValue dearer
    · rw [Search.tree_opposite_withTree]
      exact .refl _
  refine ⟨⟨underway.filter, fun side => ?_, met, ?_, ?_⟩, extends_⟩
  · rcases Direction.eq_or_opposite direction side with rfl | rfl
    · rw [Search.tree_withTree]
      exact (underway.grown side).take takes orderedAfter
    · rw [Search.tree_opposite_withTree]
      exact underway.grown _
  · intro side other found arc holds mayTake
    have before : (search.tree side).Holds other found true ∨ side = direction ∧ other = id ∧
        found = label := by
      rcases Direction.eq_or_opposite direction side with rfl | rfl
      · rw [Search.tree_withTree] at holds
        exact (takes.holds_iff.mp holds).symm.imp And.right fun new => ⟨rfl, new.1, new.2.1⟩
      · rw [Search.tree_opposite_withTree] at holds
        exact .inl holds
    rcases before with held | ⟨rfl, rfl, rfl⟩
    · rcases underway.looked held mayTake with waits | beats | covers
      · exact waits.elim
      · exact .inr (.inl (extends_.beatsLabel beats))
      · exact .inr (.inr (covers.mono (extends_.grows side)))
    · exact .inl ⟨rfl, rfl, mayTake.member⟩
  · intro side isFinished other found holds
    rcases Direction.eq_or_opposite direction side with rfl | rfl
    · rw [Search.tree_withTree] at isFinished holds
      rcases takes.holds_iff.mp holds with ⟨_, _, isOpen⟩ | ⟨_, held⟩
      · cases isOpen
      · exact extends_.beatsLabel
          (underway.exhausted (takes.finished.symm.trans isFinished) held)
    · rw [Search.tree_opposite_withTree] at isFinished holds
      exact extends_.beatsLabel (underway.exhausted isFinished holds)

/-- A label that is beaten does not have to be looked from. -/
theorem Underway.pass {arcs : List (Arc Exact)}
    (underway : Underway planner query (arcsFrom direction id arcs) search)
    (closed : (search.tree direction).Holds id label true) (beats : search.BeatsLabel label) :
    Underway planner query noArc search where
  filter := underway.filter
  grown := underway.grown
  met := underway.met
  exhausted := underway.exhausted
  looked {side other found arc} holds mayTake := by
    rcases underway.looked holds mayTake with ⟨rfl, rfl, _⟩ | settled
    · exact .inr (.inl ((holds.unique closed).1 ▸ beats))
    · exact .inr settled

/-- A direction may finish when all its open labels are beaten. -/
theorem Underway.finish (underway : Underway planner query noArc search) (direction : Direction)
    (beaten : ∀ id label, (search.tree direction).Holds id label false →
      search.BeatsLabel label) :
    Underway planner query noArc
        (search.withTree direction ((search.tree direction).finish true)) ∧
      search.Extends (search.withTree direction ((search.tree direction).finish true)) := by
  obtain ⟨met, improves⟩ := underway.met.withTree direction
    ((search.tree direction).finish true) (fun _ => rfl) fun _ => rfl
  have extends_ : search.Extends
      (search.withTree direction ((search.tree direction).finish true)) := by
    refine ⟨fun side => ?_, improves⟩
    rcases Direction.eq_or_opposite direction side with rfl | rfl
    · rw [Search.tree_withTree]
      exact SearchTree.grows_finish _
    · rw [Search.tree_opposite_withTree]
      exact .refl _
  have before {side : Direction} {other : LabelId} {found : Label Exact X} {settled : Bool}
      (holds : ((search.withTree direction ((search.tree direction).finish true)).tree
        side).Holds other found settled) : (search.tree side).Holds other found settled := by
    rcases Direction.eq_or_opposite direction side with rfl | rfl
    · rw [Search.tree_withTree] at holds
      exact holds
    · rwa [Search.tree_opposite_withTree] at holds
  refine ⟨⟨underway.filter, fun side => ?_, met, ?_, ?_⟩, extends_⟩
  · rcases Direction.eq_or_opposite direction side with rfl | rfl
    · rw [Search.tree_withTree]
      exact (underway.grown side).finish true
    · rw [Search.tree_opposite_withTree]
      exact underway.grown _
  · intro side other found arc holds mayTake
    rcases underway.looked (before holds) mayTake with waits | beats | covers
    · exact waits.elim
    · exact .inr (.inl (extends_.beatsLabel beats))
    · exact .inr (.inr (covers.mono (extends_.grows side)))
  · intro side isFinished other found holds
    rcases Direction.eq_or_opposite direction side with rfl | rfl
    · exact extends_.beatsLabel (beaten other found (before holds))
    · rw [Search.tree_opposite_withTree] at isFinished
      exact extends_.beatsLabel (underway.exhausted isFinished (before holds))

/-- What one step of a direction does to the rest of a search: it leaves the other tree alone,
settles a label if one is open, none that is new, and counts it unless the direction is
exhausted. -/
structure Search.Steps (direction : Direction) (search : Search Exact X S)
    (progress : Progress) (after : Search Exact X S) : Prop where
  there : after.tree direction.opposite = search.tree direction.opposite
  recent : ∀ {side id label}, (after.tree side).Holds id label true →
    ∃ settled, (search.tree side).Holds id label settled
  filter : after.filter = search.filter
  pins : after.pins = search.pins
  settles : (∃ id label, (search.tree direction).Holds id label false ∧
      (after.tree direction).Holds id label true) ∨
    ∀ id label, ¬ (search.tree direction).Holds id label false
  outcome : progress = .exhausted ∧ (after.tree direction).finished = true ∨
    progress = .progressed ∧
      (after.tree direction).visited = (search.tree direction).visited + 1

/-- A tree with the labels of another one holds no others. -/
theorem Search.holds_withTree {tree : SearchTree Exact X}
    (labels : ∀ id, tree.label? id = (search.tree direction).label? id) {side : Direction}
    {id : LabelId} {label : Label Exact X} {settled : Bool}
    (holds : ((search.withTree direction tree).tree side).Holds id label settled) :
    ∃ state, (search.tree side).Holds id label state := by
  rcases Direction.eq_or_opposite direction side with rfl | rfl
  · rw [Search.tree_withTree] at holds
    exact SearchTree.holds_of_label? ((labels id).symm.trans holds.label?)
  · rw [Search.tree_opposite_withTree] at holds
    exact ⟨settled, holds⟩

/-- A label that was taken and is beaten ends its direction, since no open label is cheaper. -/
theorem Underway.drop (underway : Underway planner query noArc search) {bound : Rat}
    {tree : SearchTree Exact X} (ordered : (search.tree direction).Ordered bound)
    (takes : (search.tree direction).Takes id label tree) (isValue : label.weight = .finite value)
    (dearer : bound ≤ value) (orderedAfter : tree.Ordered value)
    (beats : (search.withTree direction tree).Beats value) {after : Search Exact X S}
    (isAfter : after = (search.withTree direction tree).withTree direction
      (((search.withTree direction tree).tree direction).finish true)) :
    Underway planner query noArc after ∧ search.Extends after ∧
      Search.Steps direction search .exhausted after := by
  obtain ⟨waiting, extends_⟩ := underway.take ordered takes isValue dearer orderedAfter
  have closed : ((search.withTree direction tree).tree direction).Holds id label true := by
    rw [Search.tree_withTree]
    exact takes.settled
  have passed := waiting.pass closed ⟨value, isValue, beats⟩
  obtain ⟨finished, extendsFinished⟩ := passed.finish direction fun other found holds => by
    rw [Search.tree_withTree] at holds
    obtain ⟨least, atMost, isLeast⟩ := orderedAfter.ahead holds
    exact ⟨least, isLeast, beats.mono atMost⟩
  subst isAfter
  refine ⟨finished, extends_.trans extendsFinished, ?_, fun holds => ?_, rfl, rfl,
    .inl ⟨id, label, takes.taken, ?_⟩, .inl ⟨rfl, ?_⟩⟩
  · rw [Search.tree_opposite_withTree, Search.tree_opposite_withTree]
  · have same (other : LabelId) :
        (((search.withTree direction tree).tree direction).finish true).label? other =
          ((search.withTree direction tree).tree direction).label? other := rfl
    obtain ⟨_, held⟩ := Search.holds_withTree same holds
    exact Search.holds_withTree takes.label? held
  · exact (extendsFinished.grows direction).settled closed
  · rw [Search.tree_withTree]
    rfl

/-- A label that was taken and is not beaten is looked from over all its arcs. -/
theorem Underway.settle (lawful : planner.Lawful)
    (underway : Underway planner query noArc search) {bound : Rat} {tree : SearchTree Exact X}
    (ordered : (search.tree direction).Ordered bound)
    (takes : (search.tree direction).Takes id label tree) (isValue : label.weight = .finite value)
    (dearer : bound ≤ value) (orderedAfter : tree.Ordered value)
    (unbeaten : ¬ (search.withTree direction tree).Beats value)
    (fits : StepFits query direction step label) :
    Underway planner query noArc
        (planner.expand direction step id label (search.withTree direction tree)) ∧
      search.Extends (planner.expand direction step id label (search.withTree direction tree)) ∧
      Search.Steps direction search .progressed
        (planner.expand direction step id label (search.withTree direction tree)) := by
  obtain ⟨waiting, extends_⟩ := underway.take ordered takes isValue dearer orderedAfter
  have closed : ((search.withTree direction tree).tree direction).Holds id label true := by
    rw [Search.tree_withTree]
    exact takes.settled
  have notFinished : (search.tree direction).finished = false := by
    by_contra isFinished
    obtain ⟨weight, isWeight, beats⟩ := underway.exhausted
      (Bool.eq_true_of_not_eq_false isFinished) takes.taken
    rw [isValue, Exact.finite.injEq] at isWeight
    exact unbeaten (isWeight ▸ extends_.improves.beats beats)
  obtain ⟨expanded, extendsAll, frames⟩ := waiting.expand lawful closed
    (by rw [Search.tree_withTree]; exact takes.last)
    (by rw [Search.tree_withTree]; exact takes.finished.trans notFinished) fits
    fun _ member => member
  refine ⟨expanded, extends_.trans extendsAll, ?_,
    fun holds => Search.holds_withTree takes.label? (frames.settled holds), frames.filter,
    frames.pins, .inl ⟨id, label, takes.taken, ?_⟩, .inr ⟨rfl, ?_⟩⟩
  · exact frames.there.trans (Search.tree_opposite_withTree _ _ _)
  · exact (extendsAll.grows direction).settled closed
  · apply frames.visited.trans
    rw [Search.tree_withTree]
    exact takes.visited

/-- A step of a direction keeps what holds underway. -/
theorem Underway.advanceUnder (lawful : planner.Lawful)
    (underway : Underway planner query noArc search)
    (fits : ∀ id label, (search.tree direction).Holds id label false →
      StepFits query direction step label) :
    Underway planner query noArc (planner.advanceUnder direction step search).2 ∧
      search.Extends (planner.advanceUnder direction step search).2 ∧
      Search.Steps direction search (planner.advanceUnder direction step search).1
        (planner.advanceUnder direction step search).2 := by
  obtain ⟨bound, ordered⟩ := (underway.grown direction).ordered
  have popped := ordered.pop?
  unfold Planner.advanceUnder Planner.settle
  cases pops : (search.tree direction).pop? with
  | none =>
      rw [pops] at popped
      dsimp only at popped ⊢
      obtain ⟨finished, extends_⟩ := underway.finish direction
        fun id label holds => absurd holds (popped id label)
      have same (other : LabelId) : ((search.tree direction).finish true).label? other =
          (search.tree direction).label? other := rfl
      exact ⟨finished, extends_, Search.tree_opposite_withTree _ _ _,
        Search.holds_withTree same, rfl, rfl, .inr popped,
        .inl ⟨rfl, by rw [Search.tree_withTree]; rfl⟩⟩
  | some triple =>
      obtain ⟨id, seen, tree⟩ := triple
      rw [pops] at popped
      obtain ⟨rfl, label, value, takes, isValue, dearer, orderedAfter⟩ := popped
      obtain ⟨waiting, _⟩ := underway.take ordered takes isValue dearer orderedAfter
      dsimp only
      rw [takes.settled.label?]
      dsimp only
      cases isBeaten : (search.withTree direction tree).isBeaten label.weight with
      | true =>
          rw [if_pos rfl]
          exact underway.drop ordered takes isValue dearer orderedAfter
            (waiting.met.proper.isBeaten_iff.mp (isValue ▸ isBeaten)) rfl
      | false =>
          rw [if_neg Bool.false_ne_true]
          refine underway.settle lawful ordered takes isValue dearer orderedAfter
            (fun beats => ?_) (fits id label takes.taken)
          rw [isValue, waiting.met.proper.isBeaten_iff.mpr beats] at isBeaten
          cases isBeaten

end RouteSearch
