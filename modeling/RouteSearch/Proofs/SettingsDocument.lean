/-
This file proves that the statements of a settings text fill a table by their keys, and that no
statement takes away or replaces a value that was given a key before.
-/

import RouteSearch.Proofs.SettingsValues
import Mathlib.Data.List.Nodup

namespace RouteSearch.Settings

variable {key : String} {value : Value} {entries later : Entries}

namespace Entries

theorem find?_replace_of_ne {other : String} (different : key ≠ other) (inner : Value) :
    (entries.replace other inner).find? key = entries.find? key := by
  induction entries with
  | nil => rfl
  | cons entry entries ih =>
      obtain ⟨name, known⟩ := entry
      rw [find?, replace] at ih ⊢
      rw [List.map_cons, List.lookup_cons, ih]
      by_cases here : name = other
      · have apart : (key == other) = false := by simpa using different
        cases here
        simp [find?, List.lookup_cons, apart]
      · simp [find?, List.lookup_cons, here]

theorem find?_append (held : entries.find? key = some value) (more : Entries) :
    (entries ++ more).find? key = some value := by
  rw [find?] at held ⊢
  rw [List.lookup_append, held]
  rfl

theorem find?_eq_none : entries.find? key = none ↔ key ∉ entries.map Prod.fst := by
  rw [find?, List.lookup_eq_none_iff]
  simp only [bne_iff_ne, List.mem_map, not_exists, not_and]
  exact ⟨fun absent entry member same => absent entry member same.symm,
    fun absent entry member same => absent entry member same.symm⟩

theorem mem_of_find? (held : entries.find? key = some value) : (key, value) ∈ entries := by
  obtain ⟨before, after, rfl, -⟩ := List.lookup_eq_some_iff.mp held
  simp

/-- What a table becomes when a value is given a path in it: the value comes last, or it comes into
a new table or into one that was made by a key with points. -/
inductive Assigned (new : Value) : List String → Entries → Entries → Prop where
  | last {name : String} {entries : Entries} (fresh : entries.find? name = none) :
      Assigned new [name] entries (entries ++ [(name, new)])
  | opened {name : String} {path : List String} {entries inner : Entries}
      (fresh : entries.find? name = none) (made : Assigned new path [] inner) :
      Assigned new (name :: path) entries (entries ++ [(name, .table .dotted inner)])
  | within {name : String} {path : List String} {entries known inner : Entries}
      (found : entries.find? name = some (.table .dotted known))
      (made : Assigned new path known inner) :
      Assigned new (name :: path) entries (entries.replace name (.table .dotted inner))

theorem assigned_of_assign? {path : List String} {new : Value}
    (assigned : assign? new path entries = some later) : Assigned new path entries later := by
  induction path generalizing entries later with
  | nil => cases assigned
  | cons name path ih =>
      unfold assign? at assigned
      split at assigned
      · rename_i nothing
        cases nothing
      · rename_i single
        cases single
        split at assigned
        · rename_i fresh
          cases assigned
          exact .last fresh
        · cases assigned
      · rename_i several
        cases several
        split at assigned
        · rename_i fresh
          obtain ⟨inner, made, rfl⟩ := Option.map_eq_some_iff.mp assigned
          exact .opened fresh (ih made)
        · rename_i known found
          obtain ⟨inner, made, rfl⟩ := Option.map_eq_some_iff.mp assigned
          exact .within found (ih made)
        · cases assigned

/-- A path that goes through a complete value leads nowhere. -/
theorem Assigned.keeps {path : List String} {new : Value}
    (assigned : Assigned new path entries later) (complete : value.Complete)
    (held : entries.find? key = some value) : later.find? key = some value := by
  cases assigned with
  | last fresh => exact find?_append held _
  | opened fresh made => exact find?_append held _
  | @within name path entries known inner found made =>
      have different : key ≠ name := by
        rintro rfl
        rw [held] at found
        cases found
        cases complete
      rw [find?_replace_of_ne different, held]

/-- A header opens a table beside the complete values. -/
theorem openTable?_keeps {path : List String} (complete : value.Complete)
    (held : entries.find? key = some value) (opened : openTable? path entries = some later) :
    later.find? key = some value ∧ path.head? ≠ some key := by
  have different {name : String} {found : Option Value} (known : entries.find? name = found)
      (other : found ≠ some value) : key ≠ name := by
    rintro rfl
    exact other (known.symm.trans held)
  unfold openTable? at opened
  split at opened
  · cases opened
  · split at opened
    · rename_i name _ absent
      cases opened
      exact ⟨find?_append held _, by simpa using (different absent (by simp)).symm⟩
    · rename_i name _ known found
      cases opened
      have apart := different found (by rintro ⟨⟩; cases complete)
      exact ⟨by rw [find?_replace_of_ne apart, held], by simpa using apart.symm⟩
    · cases opened
  · split at opened
    · rename_i name path _ _ absent
      obtain ⟨inner, -, rfl⟩ := Option.map_eq_some_iff.mp opened
      exact ⟨find?_append held _, by simpa using (different absent (by simp)).symm⟩
    · cases opened
    · rename_i name path _ _ origin known closed found
      obtain ⟨inner, -, rfl⟩ := Option.map_eq_some_iff.mp opened
      have apart := different found (by
        rintro ⟨⟩
        exact closed complete)
      exact ⟨by rw [find?_replace_of_ne apart, held], by simpa using apart.symm⟩
    · cases opened

theorem changeAt?_keeps {change : Entries → Option Entries} {path : List String}
    (apart : path.head? ≠ some key) (held : entries.find? key = some value)
    (keeps : ∀ next, change entries = some next → next.find? key = some value)
    (changed : changeAt? change path entries = some later) : later.find? key = some value := by
  cases path with
  | nil => exact keeps later changed
  | cons name path =>
      unfold changeAt? at changed
      split at changed
      · obtain ⟨inner, -, rfl⟩ := Option.map_eq_some_iff.mp changed
        rw [find?_replace_of_ne (fun same => apart (by rw [same]; rfl)), held]
      · cases changed

end Entries

namespace Document

variable {document next : Document}

/-- A key of the outermost table has a complete value, and no table is open beneath it. -/
structure Keeps (document : Document) (key : String) (value : Value) : Prop where
  held : document.entries.find? key = some value
  apart : document.current.head? ≠ some key

theorem Keeps.follow? {statement : Statement} (complete : value.Complete)
    (keeps : document.Keeps key value) (followed : document.follow? statement = some next) :
    next.Keeps key value := by
  cases statement with
  | assign path new =>
      obtain ⟨entries, changed, rfl⟩ := Option.map_eq_some_iff.mp followed
      exact ⟨Entries.changeAt?_keeps keeps.apart keeps.held
        (fun _ assigned => (Entries.assigned_of_assign? assigned).keeps complete keeps.held)
        changed, keeps.apart⟩
  | header path =>
      obtain ⟨entries, opened, rfl⟩ := Option.map_eq_some_iff.mp followed
      obtain ⟨held, apart⟩ := Entries.openTable?_keeps complete keeps.held opened
      exact ⟨held, apart⟩

/-- Whatever statements follow, a complete value stays. -/
theorem Keeps.followAll {statements : List Statement} (complete : value.Complete)
    (keeps : document.Keeps key value)
    (followed : statements.foldlM Document.follow? document = some next) :
    next.Keeps key value := by
  induction statements generalizing document with
  | nil =>
      cases followed
      exact keeps
  | cons statement statements ih =>
      obtain ⟨between, first, others⟩ := Option.bind_eq_some_iff.mp followed
      exact ih (keeps.follow? complete first) others

theorem follow?_ofEntry (entries : Entries) (entry : String × Value) :
    follow? ⟨entries, []⟩ (.ofEntry entry) =
      if entry.1 ∈ entries.map Prod.fst then none else some ⟨entries ++ [entry], []⟩ := by
  change (entries.assign? entry.2 [entry.1]).map (fun entries => (⟨entries, []⟩ : Document)) = _
  rw [Entries.assign?]
  split
  · rename_i absent
    rw [if_neg (Entries.find?_eq_none.mp absent)]
    rfl
  · rename_i found known
    rw [if_pos]
    · rfl
    · by_contra absent
      rw [Entries.find?_eq_none.mpr absent] at known
      cases known

/-- Entries are added to the outermost table as long as no key is given twice. -/
theorem followAll_ofEntry {known : Entries} (distinct : (known.map Prod.fst).Nodup)
    (given : Entries) : (given.map Statement.ofEntry).foldlM follow? ⟨known, []⟩ =
      if ((known ++ given).map Prod.fst).Nodup then some ⟨known ++ given, []⟩ else none := by
  induction given generalizing known with
  | nil =>
      rw [List.append_nil, if_pos distinct]
      rfl
  | cons entry given ih =>
      rw [List.map_cons, List.foldlM_cons, follow?_ofEntry]
      by_cases again : entry.1 ∈ known.map Prod.fst
      · rw [if_pos again, if_neg]
        · rfl
        · rw [List.map_append, List.nodup_append]
          rintro ⟨-, -, apart⟩
          exact apart entry.1 again entry.1 (by simp) rfl
      · have longer : ((known ++ [entry]).map Prod.fst).Nodup := by
          rw [List.map_append, List.nodup_append]
          refine ⟨distinct, by simp, fun name member other last same => again ?_⟩
          rw [List.map_singleton, List.mem_singleton] at last
          exact last ▸ same ▸ member
        rw [if_neg again]
        change (given.map Statement.ofEntry).foldlM follow? ⟨known ++ [entry], []⟩ = _
        rw [ih longer, List.append_assoc, List.singleton_append]

/-- Entries that come first are in the table by the time the other statements are followed. -/
theorem followAll_append {given : Entries} {others : List Statement}
    (followed : (given.map Statement.ofEntry ++ others).foldlM follow? ⟨[], []⟩ = some document) :
    (given.map Prod.fst).Nodup ∧ others.foldlM follow? ⟨given, []⟩ = some document := by
  rw [List.foldlM_append, followAll_ofEntry (by simp), List.nil_append] at followed
  split at followed
  · rename_i distinct
    exact ⟨distinct, followed⟩
  · cases followed

end Document

end RouteSearch.Settings
