/-
This file traces the labels of a search tree back to its root. Each of them stands at the end of
a trail, and weighs what the trail costs.
-/

import RouteSearch.Search
import RouteSearch.Proofs.SearchTree
import RouteSearch.Proofs.Walk

namespace RouteSearch

variable {X S : Type}

/-- A key holds an edge and a sense of travel. -/
theorem StateKind.bits_eq {first second : Nat} {sense other : Bool}
    (same : 2 * first + sense.toNat = 2 * second + other.toNat) :
    first = second ∧ sense = other := by
  cases sense <;> cases other <;> simp at same ⊢ <;> omega

theorem StateKind.key_eq {W : Type} {arc other : Arc W} {direction : Direction}
    (same : StateKind.edgeBased.key arc direction = StateKind.edgeBased.key other direction) :
    arc.edge = other.edge ∧ arc.reversed = other.reversed := by
  obtain ⟨sameEdge, sameSense⟩ := StateKind.bits_eq same
  exact ⟨sameEdge, Bool.xor_left_inj.mp sameSense⟩

/-- The other view of an arc stands for the same state in the other direction. -/
theorem StateKind.key_flip {W : Type} (arc : Arc W) (direction : Direction) :
    StateKind.edgeBased.key arc.flip direction =
      StateKind.edgeBased.key arc direction.opposite := by
  cases direction <;> cases isReversed : arc.reversed <;>
    simp [key, Arc.flip, Direction.isBackward, Direction.opposite, isReversed]

theorem Planner.isEdgeBased_eq_true {W : Type} {planner : Planner W X S} :
    planner.isEdgeBased = true ↔ planner.settings.stateKind = .edgeBased := by
  unfold Planner.isEdgeBased
  cases planner.settings.stateKind <;> simp [StateKind.isEdgeBased]

theorem Planner.isEdgeBased_eq_false {W : Type} {planner : Planner W X S} :
    planner.isEdgeBased = false ↔ planner.settings.stateKind = .nodeBased := by
  unfold Planner.isEdgeBased
  cases planner.settings.stateKind <;> simp [StateKind.isEdgeBased]

/-- This is the label that a direction of the query starts from. -/
structure Query.IsRoot (query : Query) (direction : Direction) (label : Label Exact X) :
    Prop where
  edge : label.edge = noEdge
  node : label.node = query.ends.get direction
  weight : label.weight = .finite (query.weights.get direction)
  parent : label.parent = none

/-- From this label a direction looks over the arc. -/
structure Planner.MayTake (planner : Planner Exact X S) (query : Query) (direction : Direction)
    (above : Label Exact X) (arc : Arc Exact) : Prop where
  member : arc ∈ planner.network.arcs above.node
  allows : query.Allows direction above.isRoot arc
  turns : planner.isEdgeBased = true ∨ arc.edge ≠ above.edge

/-- The label is what a direction writes down when it comes over the arc. -/
structure Planner.Reaches (planner : Planner Exact X S) (query : Query) (direction : Direction)
    (parent : LabelId) (above : Label Exact X) (arc : Arc Exact) (label : Label Exact X) :
    Prop extends planner.MayTake query direction above arc where
  edge : label.edge = arc.edge
  node : label.node = arc.far
  parent : label.parent = some parent
  weight : label.weight = planner.pricing.cost arc direction above.edge + above.weight

/-- The state that a trail ends in. The root of an edge-based search is in none. -/
def Planner.stateAt? (planner : Planner Exact X S) (query : Query) (direction : Direction) :
    Trail → Option StateKey
  | [] => if planner.isEdgeBased then none else some (query.ends.get direction)
  | arc :: _ => some (planner.settings.stateKind.key arc direction)

/-- The label under the id was written at the end of the trail, and the labels before it are
settled. The index leads to each of them from the arc that it was reached over. -/
inductive Branch (planner : Planner Exact X S) (query : Query) (direction : Direction)
    (tree : SearchTree Exact X) : Trail → LabelId → Label Exact X → Prop
  | root {label settled} (holds : tree.Holds 0 label settled)
      (isRoot : query.IsRoot direction label) : Branch planner query direction tree [] 0 label
  | step {before parent above arc id label settled}
      (branch : Branch planner query direction tree before parent above)
      (closed : tree.Holds parent above true)
      (reaches : planner.Reaches query direction parent above arc label)
      (holds : tree.Holds id label settled)
      (indexed : tree.lookup? (planner.settings.stateKind.key arc direction) = some id) :
      Branch planner query direction tree (arc :: before) id label

namespace Branch

variable {planner : Planner Exact X S} {query : Query} {direction : Direction}
  {tree after : SearchTree Exact X} {trail : Trail} {id : LabelId} {label : Label Exact X}

theorem holds (branch : Branch planner query direction tree trail id label) :
    ∃ settled, tree.Holds id label settled := by
  cases branch with
  | root holds isRoot => exact ⟨_, holds⟩
  | step branch closed reaches holds indexed => exact ⟨_, holds⟩

/-- A branch lasts as long as the index does, its settled labels stay, and its last one does. -/
theorem mono (branch : Branch planner query direction tree trail id label)
    (lookups : ∀ {key id}, tree.lookup? key = some id → after.lookup? key = some id)
    (settled : ∀ {id label}, tree.Holds id label true → after.Holds id label true)
    {state : Bool} (kept : after.Holds id label state) :
    Branch planner query direction after trail id label := by
  induction branch generalizing state with
  | root _ isRoot => exact .root kept isRoot
  | step _ closed reaches _ indexed ih =>
      exact .step (ih (settled closed)) (settled closed) reaches kept (lookups indexed)

theorem isRoot_eq (branch : Branch planner query direction tree trail id label) :
    label.isRoot = trail.isEmpty := by
  cases branch with
  | root holds isRoot =>
      rw [Label.isRoot, isRoot.parent]
      rfl
  | step branch closed reaches holds indexed =>
      rw [Label.isRoot, reaches.parent]
      rfl

theorem edge_eq (branch : Branch planner query direction tree trail id label) :
    label.edge = trail.lastEdge := by
  cases branch with
  | root holds isRoot => exact isRoot.edge
  | step branch closed reaches holds indexed => exact reaches.edge

/-- A label weighs what its trail costs, on top of the weight at the root. -/
theorem weight_eq (branch : Branch planner query direction tree trail id label) :
    label.weight =
      trail.cost planner.pricing direction + .finite (query.weights.get direction) := by
  induction branch with
  | root holds isRoot => exact isRoot.weight.trans (Exact.zero_add _).symm
  | step branch closed reaches holds indexed ih =>
      rw [reaches.weight, ih, branch.edge_eq, Trail.cost, Exact.add_assoc]

theorem leads (lawful : planner.network.Lawful)
    (branch : Branch planner query direction tree trail id label) :
    trail.Leads planner.network query direction label.node := by
  induction branch with
  | root holds isRoot => exact isRoot.node
  | step branch closed reaches holds indexed ih =>
      have near := lawful.near_eq reaches.member
      refine ⟨near ▸ reaches.member, reaches.node, ?_, near ▸ ih⟩
      exact branch.isRoot_eq ▸ reaches.allows

/-- Where anything is settled, the root is. -/
theorem root_settled (branch : Branch planner query direction tree trail id label)
    (settled : tree.Holds id label true) : ∃ root, tree.Holds 0 root true := by
  induction branch with
  | root _ isRoot => exact ⟨_, settled⟩
  | step _ closed _ _ _ ih => exact ih closed

theorem parent_settled (branch : Branch planner query direction tree trail id label)
    {parent : LabelId} (isParent : label.parent = some parent) :
    ∃ above, tree.Holds parent above true := by
  cases branch with
  | root holds isRoot =>
      rw [isRoot.parent] at isParent
      cases isParent
  | step branch closed reaches holds indexed =>
      rw [reaches.parent, Option.some.injEq] at isParent
      exact isParent ▸ ⟨_, closed⟩

end Branch

/-- The tree of one direction in the middle of a search: it settles labels in order, every label
ends a trail, and the index leads to every label but the root of an edge-based search. -/
structure Grown (planner : Planner Exact X S) (query : Query) (direction : Direction)
    (tree : SearchTree Exact X) : Prop where
  ordered : ∃ bound, tree.Ordered bound
  rooted : ∃ label settled, tree.Holds 0 label settled ∧ query.IsRoot direction label
  keyed : ∀ {key id}, tree.lookup? key = some id → ∃ trail label,
    Branch planner query direction tree trail id label ∧
      planner.stateAt? query direction trail = some key
  indexed : ∀ {id label settled}, tree.Holds id label settled →
    id = 0 ∧ planner.isEdgeBased = true ∨ ∃ key, tree.lookup? key = some id
  injective : ∀ {first second id}, tree.lookup? first = some id →
    tree.lookup? second = some id → first = second

namespace Grown

variable {planner : Planner Exact X S} {query : Query} {direction : Direction}
  {tree after : SearchTree Exact X} {id : LabelId} {label : Label Exact X}

theorem branch (grown : Grown planner query direction tree) {settled : Bool}
    (holds : tree.Holds id label settled) :
    ∃ trail, Branch planner query direction tree trail id label := by
  rcases grown.indexed holds with ⟨rfl, _⟩ | ⟨key, found⟩
  · obtain ⟨root, state, atRoot, isRoot⟩ := grown.rooted
    exact ⟨[], .root holds ((holds.unique atRoot).1 ▸ isRoot)⟩
  · obtain ⟨trail, known, branch, _⟩ := grown.keyed found
    obtain ⟨state, held⟩ := branch.holds
    exact ⟨trail, (holds.unique held).1 ▸ branch⟩

theorem finite (grown : Grown planner query direction tree) {settled : Bool}
    (holds : tree.Holds id label settled) : ∃ value, label.weight = .finite value := by
  obtain ⟨bound, ordered⟩ := grown.ordered
  exact ordered.finite holds

theorem tidy (grown : Grown planner query direction tree) : tree.Tidy where
  inside found := by
    obtain ⟨_, label, branch, _⟩ := grown.keyed found
    exact ⟨label, branch.holds.choose_spec.label?⟩
  injective := grown.injective
  finite atId := grown.finite (SearchTree.holds_of_label? atId).choose_spec

theorem eq_root (grown : Grown planner query direction tree) {settled : Bool}
    (holds : tree.Holds 0 label settled) : query.IsRoot direction label := by
  obtain ⟨root, state, atRoot, isRoot⟩ := grown.rooted
  exact (holds.unique atRoot).1 ▸ isRoot

/-- An index entry leads to a label at the end of a trail to its key. -/
theorem branch_of_key (grown : Grown planner query direction tree) {key : StateKey}
    (found : tree.lookup? key = some id) {settled : Bool} (holds : tree.Holds id label settled) :
    ∃ trail, Branch planner query direction tree trail id label ∧
      planner.stateAt? query direction trail = some key := by
  obtain ⟨trail, known, branch, atKey⟩ := grown.keyed found
  obtain ⟨state, held⟩ := branch.holds
  exact ⟨trail, (holds.unique held).1 ▸ branch, atKey⟩

/-- The root of a node-based search is indexed at its node. -/
theorem lookup_root (grown : Grown planner query direction tree)
    (nodeBased : planner.isEdgeBased = false) :
    tree.lookup? (query.ends.get direction) = some 0 := by
  obtain ⟨root, state, atRoot, isRoot⟩ := grown.rooted
  rcases grown.indexed atRoot with ⟨_, edgeBased⟩ | ⟨key, found⟩
  · rw [nodeBased] at edgeBased
    cases edgeBased
  · obtain ⟨trail, branch, atKey⟩ := grown.branch_of_key found atRoot
    have empty : trail.isEmpty = true := by
      rw [← branch.isRoot_eq, Label.isRoot, isRoot.parent]
      rfl
    rw [List.isEmpty_iff.mp empty, Planner.stateAt?, nodeBased] at atKey
    rwa [← Option.some.inj atKey] at found

/-- The root of an edge-based search is not indexed. -/
theorem lookup_ne_root (grown : Grown planner query direction tree)
    (edgeBased : planner.isEdgeBased = true) (key : StateKey) : tree.lookup? key ≠ some 0 := by
  intro found
  obtain ⟨root, state, atRoot, isRoot⟩ := grown.rooted
  obtain ⟨trail, branch, atKey⟩ := grown.branch_of_key found atRoot
  have empty : trail.isEmpty = true := by
    rw [← branch.isRoot_eq, Label.isRoot, isRoot.parent]
    rfl
  rw [List.isEmpty_iff.mp empty, Planner.stateAt?, edgeBased] at atKey
  cases atKey

/-- The label of a state stands at the node that all arcs of the state lead to. -/
theorem node_eq (grown : Grown planner query direction tree) (lawful : planner.network.Lawful)
    {node : NodeId} {arc : Arc Exact} (member : arc ∈ planner.network.arcs node)
    (found : tree.lookup? (planner.settings.stateKind.key arc direction) = some id)
    {settled : Bool} (holds : tree.Holds id label settled) : label.node = arc.far := by
  obtain ⟨trail, branch, atKey⟩ := grown.branch_of_key found holds
  cases kind : planner.settings.stateKind with
  | nodeBased =>
      rw [kind] at atKey
      cases branch with
      | root holds isRoot =>
          rw [Planner.stateAt?, Planner.isEdgeBased, kind] at atKey
          exact isRoot.node.trans (Option.some.inj atKey)
      | step branch closed reaches holds indexed =>
          rw [Planner.stateAt?, kind] at atKey
          exact reaches.node.trans (Option.some.inj atKey)
  | edgeBased =>
      rw [kind] at atKey
      cases branch with
      | root holds isRoot =>
          rw [Planner.stateAt?, Planner.isEdgeBased, kind] at atKey
          cases atKey
      | step branch closed reaches holds indexed =>
          rw [Planner.stateAt?, kind] at atKey
          obtain ⟨sameEdge, sameSense⟩ := StateKind.key_eq (Option.some.inj atKey)
          rw [reaches.node, lawful.eq_of_reversed reaches.member member sameEdge sameSense]

/-- Writing down what is reached from a settled label keeps a tree in shape. -/
theorem write (grown : Grown planner query direction tree) {bound value : Rat}
    (ordered : tree.Ordered bound) {parent : LabelId} {above : Label Exact X} {arc : Arc Exact}
    (writes : tree.Writes (planner.settings.stateKind.key arc direction) label id after)
    (closed : tree.Holds parent above true)
    (reaches : planner.Reaches query direction parent above arc label)
    (weight : label.weight = .finite value) (dearer : bound ≤ value) :
    Grown planner query direction after := by
  have grows := ordered.grows_write writes weight dearer
  have holds {other : LabelId} {found : Label Exact X} {settled : Bool} :=
    ordered.holds_write writes weight dearer other found settled
  have written : after.Holds id label false := holds.mpr (.inl ⟨rfl, rfl, rfl⟩)
  obtain ⟨before, branch⟩ := grown.branch closed
  have grownBranch : Branch planner query direction after (arc :: before) id label :=
    .step (branch.mono grows.lookup? grows.settled (grows.settled closed)) (grows.settled closed)
      reaches written writes.indexed
  refine ⟨⟨bound, ordered.write writes weight dearer⟩, ?_, ?_, ?_, ?_⟩
  · obtain ⟨root, atRoot⟩ := branch.root_settled closed
    exact ⟨root, true, grows.settled atRoot, grown.eq_root atRoot⟩
  · intro key other found
    rw [writes.lookup?] at found
    by_cases same : key = planner.settings.stateKind.key arc direction
    · rw [if_pos same, Option.some.injEq] at found
      exact ⟨arc :: before, label, found ▸ grownBranch, congrArg some same.symm⟩
    · rw [if_neg same] at found
      obtain ⟨trail, known, knownBranch, atKey⟩ := grown.keyed found
      obtain ⟨settled, held⟩ := knownBranch.holds
      have differs : other ≠ id := fun isId => same (grown.tidy.eq_key writes (isId ▸ found))
      exact ⟨trail, known,
        knownBranch.mono grows.lookup? grows.settled (holds.mpr (.inr ⟨differs, held⟩)), atKey⟩
  · intro other found settled held
    rcases holds.mp held with ⟨rfl, _⟩ | ⟨_, heldBefore⟩
    · exact .inr ⟨_, writes.indexed⟩
    · exact (grown.indexed heldBefore).imp_right fun ⟨key, known⟩ => ⟨key, grows.lookup? known⟩
  · exact (grown.tidy.write writes weight).injective

/-- Settling a label keeps a tree in shape. -/
theorem take (grown : Grown planner query direction tree) {bound : Rat}
    (takes : tree.Takes id label after) (ordered : after.Ordered bound) :
    Grown planner query direction after := by
  have stays {other : LabelId} {found : Label Exact X} {settled : Bool}
      (held : tree.Holds other found settled) : ∃ state, after.Holds other found state := by
    by_cases same : other = id
    · subst same
      obtain ⟨rfl, _⟩ := held.unique takes.taken
      exact ⟨true, takes.settled⟩
    · exact ⟨settled, takes.holds_iff.mpr (.inr ⟨same, held⟩)⟩
  have wasHeld {other : LabelId} {found : Label Exact X} {settled : Bool}
      (held : after.Holds other found settled) : ∃ state, tree.Holds other found state := by
    rcases takes.holds_iff.mp held with ⟨rfl, rfl, _⟩ | ⟨_, heldBefore⟩
    · exact ⟨false, takes.taken⟩
    · exact ⟨settled, heldBefore⟩
  have settled {other : LabelId} {found : Label Exact X} (held : tree.Holds other found true) :
      after.Holds other found true := by
    refine takes.holds_iff.mpr (.inr ⟨?_, held⟩)
    rintro rfl
    cases (held.unique takes.taken).2
  refine ⟨⟨bound, ordered⟩, ?_, ?_, ?_, ?_⟩
  · obtain ⟨root, state, atRoot, isRoot⟩ := grown.rooted
    obtain ⟨state, held⟩ := stays atRoot
    exact ⟨root, state, held, isRoot⟩
  · intro key other found
    rw [takes.lookup?] at found
    obtain ⟨trail, known, branch, atKey⟩ := grown.keyed found
    obtain ⟨_, held⟩ := branch.holds
    obtain ⟨_, kept⟩ := stays held
    exact ⟨trail, known, branch.mono (takes.lookup? _).trans settled kept, atKey⟩
  · intro other found state held
    obtain ⟨_, heldBefore⟩ := wasHeld held
    exact (grown.indexed heldBefore).imp_right fun ⟨key, known⟩ =>
      ⟨key, (takes.lookup? key).trans known⟩
  · intro first second other atFirst atSecond
    rw [takes.lookup?] at atFirst atSecond
    exact grown.injective atFirst atSecond

theorem finish (grown : Grown planner query direction tree) (finished : Bool) :
    Grown planner query direction (tree.finish finished) where
  ordered := grown.ordered.imp fun _ ordered => ordered.finish finished
  rooted := grown.rooted
  keyed found := by
    obtain ⟨trail, label, branch, atKey⟩ := grown.keyed found
    obtain ⟨_, holds⟩ := branch.holds
    exact ⟨trail, label, branch.mono id id holds, atKey⟩
  indexed := grown.indexed
  injective := grown.injective

end Grown

end RouteSearch
