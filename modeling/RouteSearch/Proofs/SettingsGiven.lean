/-
This file proves that a list of single settings gives the settings it was taken from, in any order
and with defaults left out.
-/

import RouteSearch.Settings.Writer

namespace RouteSearch.Settings

variable {settings start : Settings} {list : List Setting} {setting other : Setting}

theorem mem_toList : setting ∈ settings.toList ↔
    match setting with
    | .stateKind kind => settings.stateKind = kind
    | .maxVisited count => settings.maxVisited = some count
    | .timeoutMs milliseconds => settings.timeoutMs = some milliseconds
    | .initialCapacity capacity => settings.initialCapacity = some capacity
    | .tracksMeeting tracks => settings.tracksMeeting = tracks := by
  cases setting <;> simp [toList, eq_comm]

/-- A setting that is applied takes the place of the one with its name. -/
theorem mem_toList_apply : other ∈ (setting.apply settings).toList ↔
    other = setting ∨ other ∈ settings.toList ∧ other.name ≠ setting.name := by
  rw [mem_toList, mem_toList]
  cases setting <;> cases other <;> simp [Setting.apply, Setting.name, eq_comm]

theorem eq_of_name (held : setting ∈ settings.toList) (also : other ∈ settings.toList)
    (same : setting.name = other.name) : setting = other := by
  rw [mem_toList] at held also
  cases setting <;> cases other <;> simp_all [Setting.name]

/-- Settings that stand for the same list agree on a limit. -/
theorem limit_eq (limit? : Settings → Option Nat) (ofLimit : Nat → Setting)
    (mem : ∀ settings count, ofLimit count ∈ settings.toList ↔ limit? settings = some count)
    (named : ∀ setting count, setting.name = (ofLimit count).name → ∃ held, setting = ofLimit held)
    (all : ∀ setting ∈ settings.toList, setting ∈ start.toList)
    (noOthers : ∀ other ∈ start.toList, ∃ setting ∈ settings.toList, setting.name = other.name) :
    limit? start = limit? settings := by
  cases known : limit? settings with
  | some count => exact (mem start count).mp (all _ ((mem settings count).mpr known))
  | none =>
      cases other : limit? start with
      | none => rfl
      | some count =>
          obtain ⟨setting, member, same⟩ := noOthers _ ((mem start count).mpr other)
          obtain ⟨held, rfl⟩ := named setting count same
          rw [mem, known] at member
          cases member

theorem eq_of_toList (all : ∀ setting ∈ settings.toList, setting ∈ start.toList)
    (noOthers : ∀ other ∈ start.toList, ∃ setting ∈ settings.toList, setting.name = other.name) :
    start = settings := by
  have kind := mem_toList.mp (all (.stateKind settings.stateKind) (mem_toList.mpr rfl))
  have tracks := mem_toList.mp (all (.tracksMeeting settings.tracksMeeting) (mem_toList.mpr rfl))
  have visits := limit_eq maxVisited .maxVisited
    (fun _ _ => mem_toList) (fun setting _ => by cases setting <;> simp [Setting.name]) all noOthers
  have time := limit_eq timeoutMs .timeoutMs
    (fun _ _ => mem_toList) (fun setting _ => by cases setting <;> simp [Setting.name]) all noOthers
  have room := limit_eq initialCapacity .initialCapacity
    (fun _ _ => mem_toList) (fun setting _ => by cases setting <;> simp [Setting.name]) all noOthers
  cases settings
  cases start
  exact congr (congr (congr (congr (congrArg _ kind) visits) time) room) tracks

theorem foldl_apply (held : ∀ setting ∈ list, setting ∈ settings.toList)
    (all : ∀ setting ∈ settings.toList, setting ∈ list ∨ setting ∈ start.toList)
    (noOthers : ∀ other ∈ start.toList, ∃ setting ∈ settings.toList, setting.name = other.name) :
    list.foldl Setting.apply start = settings := by
  induction list generalizing start with
  | nil => exact eq_of_toList (by simpa using all) noOthers
  | cons first list ih =>
      have firstHeld := held first (by simp)
      refine ih (fun setting member => held setting (List.mem_cons_of_mem _ member))
        (fun setting member => ?_) (fun other member => ?_)
      · rw [mem_toList_apply]
        by_cases same : setting.name = first.name
        · exact .inr (.inl (eq_of_name member firstHeld same))
        · rcases all setting member with inList | inStart
          · rcases List.mem_cons.mp inList with rfl | later
            · exact absurd rfl same
            · exact .inl later
          · exact .inr (.inr ⟨inStart, same⟩)
      · rcases mem_toList_apply.mp member with rfl | ⟨inStart, -⟩
        · exact ⟨other, firstHeld, rfl⟩
        · exact noOthers other inStart

/-- Settings are what a list that gives them stands for. -/
theorem GivenBy.ofList_eq (given : settings.GivenBy list) : ofList list = settings := by
  refine foldl_apply given.held given.complete fun other member => ?_
  have kind : Setting.stateKind settings.stateKind ∈ settings.toList := mem_toList.mpr rfl
  have tracks : Setting.tracksMeeting settings.tracksMeeting ∈ settings.toList := mem_toList.mpr rfl
  rw [mem_toList] at member
  cases other with
  | stateKind _ => exact ⟨_, kind, rfl⟩
  | tracksMeeting _ => exact ⟨_, tracks, rfl⟩
  | maxVisited _ => cases member
  | timeoutMs _ => cases member
  | initialCapacity _ => cases member

end RouteSearch.Settings
