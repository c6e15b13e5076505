/-
This file follows the parents of a label up to the root of its tree.
-/

import RouteSearch.Proofs.SearchTree
import Mathlib.Logic.Relation

namespace RouteSearch.SearchTree

variable {W X : Type} {tree after : SearchTree W X} {id parent : LabelId} {label : Label W X}
  {line : List (Label W X)}

/-- The labels from `id` up to the root, which stands under the first id. All but the first of
them are settled. -/
inductive Lineage (tree : SearchTree W X) : LabelId → List (Label W X) → Prop where
  | root {label settled} (holds : tree.Holds 0 label settled) (isRoot : label.parent = none) :
      Lineage tree 0 [label]
  | step {id label settled parent above line} (holds : tree.Holds id label settled)
      (isParent : label.parent = some parent) (closed : tree.Holds parent above true)
      (rest : Lineage tree parent line) : Lineage tree id (label :: line)

/-- The label under `id` was come to from the label under `parent`. -/
def IsParent (tree : SearchTree W X) (parent id : LabelId) : Prop :=
  ∃ label, tree.label? id = some label ∧ label.parent = some parent

/-- The labels from `id` up to one without a parent, settled or not. -/
inductive Chain (tree : SearchTree W X) : LabelId → List (Label W X) → Prop where
  | root {id : LabelId} {label} (atId : tree.label? id = some label)
      (isRoot : label.parent = none) : Chain tree id [label]
  | step {id parent : LabelId} {label line} (atId : tree.label? id = some label)
      (isParent : label.parent = some parent) (rest : Chain tree parent line) :
      Chain tree id (label :: line)

theorem chain_of_lineageWithin {steps : Nat} (isLine : tree.lineageWithin steps id = some line) :
    tree.Chain id line := by
  induction steps generalizing id line with
  | zero => cases isLine
  | succ steps ih =>
      rw [lineageWithin] at isLine
      obtain ⟨label, atId, rest⟩ := Option.bind_eq_some_iff.mp isLine
      cases isParent : label.parent with
      | none =>
          rw [isParent] at rest
          cases rest
          exact .root atId isParent
      | some parent =>
          rw [isParent] at rest
          obtain ⟨older, above, isWhole⟩ := Option.bind_eq_some_iff.mp rest
          cases isWhole
          exact .step atId isParent (ih above)

namespace Lineage

theorem holds (lineage : tree.Lineage id line) : ∃ label settled, tree.Holds id label settled := by
  cases lineage with
  | root holds isRoot => exact ⟨_, _, holds⟩
  | step holds isParent closed rest => exact ⟨_, _, holds⟩

/-- A lineage lasts as long as the settled labels stay and its first label does. -/
theorem mono (lineage : tree.Lineage id line)
    (settled : ∀ {id label}, tree.Holds id label true → after.Holds id label true)
    (kept : ∀ {label state}, tree.Holds id label state → ∃ later, after.Holds id label later) :
    after.Lineage id line := by
  induction lineage with
  | root holds isRoot =>
      obtain ⟨later, held⟩ := kept holds
      exact .root held isRoot
  | step holds isParent closed rest ih =>
      obtain ⟨later, held⟩ := kept holds
      apply Lineage.step held isParent (settled closed)
      apply ih
      intro found state heldParent
      exact ⟨true, settled ((heldParent.unique closed).1 ▸ closed)⟩

/-- A label has one lineage. -/
theorem unique {other : List (Label W X)} (lineage : tree.Lineage id line)
    (again : tree.Lineage id other) : line = other := by
  induction lineage generalizing other with
  | root holds isRoot =>
      cases again with
      | root holdsAgain _ => rw [(holds.unique holdsAgain).1]
      | step holdsAgain isParent _ _ =>
          rw [← (holds.unique holdsAgain).1, isRoot] at isParent
          cases isParent
  | step holds isParent closed rest ih =>
      cases again with
      | root holdsAgain isRoot =>
          rw [← (holds.unique holdsAgain).1, isParent] at isRoot
          cases isRoot
      | step holdsAgain isParentAgain _ restAgain =>
          obtain ⟨rfl, _⟩ := holds.unique holdsAgain
          rw [isParent, Option.some.injEq] at isParentAgain
          subst isParentAgain
          rw [ih restAgain]

/-- Where anything is settled, the root is. -/
theorem root_settled (lineage : tree.Lineage id line) (settled : tree.Holds id label true) :
    ∃ root, tree.Holds 0 root true := by
  induction lineage generalizing label with
  | root _ _ => exact ⟨label, settled⟩
  | step _ _ closed _ ih => exact ih closed

/-- The parent of a label has a shorter lineage. -/
theorem of_parent (lineage : tree.Lineage id line) (isParent : tree.IsParent parent id) :
    ∃ shorter, tree.Lineage parent shorter ∧ shorter.length < line.length := by
  obtain ⟨label, atId, isAbove⟩ := isParent
  cases lineage with
  | root holds isRoot =>
      rw [holds.label?, Option.some.injEq] at atId
      rw [atId, isAbove] at isRoot
      cases isRoot
  | step holds isParent closed rest =>
      rw [holds.label?, Option.some.injEq] at atId
      rw [atId, isAbove, Option.some.injEq] at isParent
      subst isParent
      exact ⟨_, rest, Nat.lt_succ_self _⟩

/-- No label is its own ancestor. -/
theorem acyclic (lineage : tree.Lineage id line) : ¬ Relation.TransGen tree.IsParent id id := by
  have shorter {ancestor : LabelId} (above : Relation.TransGen tree.IsParent ancestor id) :
      ∃ older, tree.Lineage ancestor older ∧ older.length < line.length := by
    induction above using Relation.TransGen.head_induction_on with
    | single isParent => exact lineage.of_parent isParent
    | head isParent _ ih =>
        obtain ⟨older, between, less⟩ := ih
        obtain ⟨oldest, first, lessAgain⟩ := between.of_parent isParent
        exact ⟨oldest, first, lessAgain.trans less⟩
  intro cycle
  obtain ⟨older, again, less⟩ := shorter cycle
  rw [again.unique lineage] at less
  exact Nat.lt_irrefl _ less

/-- The labels of a lineage stand under different ids. -/
theorem ids (lineage : tree.Lineage id line) :
    ∃ ids : List LabelId, ids.length = line.length ∧ ids.Nodup ∧ ∀ other ∈ ids,
      ∃ older, tree.Lineage other older ∧ older.length ≤ line.length := by
  induction lineage with
  | root holds isRoot =>
      refine ⟨[0], rfl, List.nodup_singleton 0, fun other member => ?_⟩
      rw [List.mem_singleton.mp member]
      exact ⟨_, .root holds isRoot, le_rfl⟩
  | @step id label _ parent above line holds isParent closed rest ih =>
      obtain ⟨ids, length, distinct, lineages⟩ := ih
      have whole := Lineage.step holds isParent closed rest
      have isNew : id ∉ ids := by
        intro member
        obtain ⟨older, again, atMost⟩ := lineages id member
        rw [again.unique whole, List.length_cons] at atMost
        exact Nat.not_succ_le_self _ atMost
      refine ⟨id :: ids, by simp [length], List.nodup_cons.mpr ⟨isNew, distinct⟩, ?_⟩
      intro other member
      cases List.mem_cons.mp member with
      | inl isId => exact ⟨_, isId ▸ whole, le_rfl⟩
      | inr isOlder =>
          obtain ⟨older, again, atMost⟩ := lineages other isOlder
          exact ⟨older, again, atMost.trans (Nat.le_succ _)⟩

/-- A lineage is no longer than the tree is large. -/
theorem length_le (lineage : tree.Lineage id line) : line.length ≤ tree.kept.size := by
  obtain ⟨ids, length, distinct, lineages⟩ := lineage.ids
  have inside : ids.toFinset ⊆ Finset.range tree.kept.size := by
    intro other member
    obtain ⟨older, again, _⟩ := lineages other (List.mem_toFinset.mp member)
    obtain ⟨label, settled, holds⟩ := again.holds
    exact Finset.mem_range.mpr holds.lt_size
  have count := Finset.card_le_card inside
  rwa [List.toFinset_card_of_nodup distinct, Finset.card_range, length] at count

theorem lineageWithin (lineage : tree.Lineage id line) {steps : Nat}
    (enough : line.length ≤ steps) : tree.lineageWithin steps id = some line := by
  induction lineage generalizing steps with
  | root holds isRoot =>
      obtain ⟨fewer, rfl⟩ := Nat.exists_eq_add_of_le' enough
      simp [SearchTree.lineageWithin, holds.label?, isRoot]
  | @step id label _ parent above line holds isParent closed rest ih =>
      obtain ⟨fewer, rfl⟩ := Nat.exists_eq_add_of_le' enough
      have above : tree.lineageWithin (fewer + line.length) parent = some line :=
        ih (Nat.le_add_left _ fewer)
      simp [SearchTree.lineageWithin, holds.label?, isParent, ← Nat.add_assoc, above]

/-- The chain of parents is the lineage. -/
theorem lineage? (lineage : tree.Lineage id line) : tree.lineage? id = some line :=
  lineage.lineageWithin lineage.length_le

/-- A lineage ends at the root. -/
theorem last (lineage : tree.Lineage id line) {settled : Bool}
    (holds : tree.Holds 0 label settled) : line.getLast? = some label := by
  induction lineage with
  | root held _ => rw [(held.unique holds).1, List.getLast?_singleton]
  | step _ _ _ rest ih =>
      cases rest with
      | root _ _ => exact ih
      | step _ _ _ _ => exact ih

end Lineage

end RouteSearch.SearchTree
