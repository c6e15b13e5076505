/-
This file proves that the statements of a settings text are those of its lines.
-/

import RouteSearch.Proofs.SettingsValues
import Mathlib.Data.List.DropRight

namespace RouteSearch.Settings

open Text

variable {fuel : Nat} {text rest : List Char}

theorem readAll?_nil (fuel : Nat) : Statement.readAll? (fuel + 1) [] = some [] := rfl

/-- A line without a statement. -/
theorem readAll?_gap (visible : dropBlanks text ≠ []) (ended : lineEnd? text = some rest) :
    Statement.readAll? (fuel + 1) text = Statement.readAll? fuel rest := by
  have again : lineEnd? (dropBlanks text) = lineEnd? text := by
    rw [lineEnd?, lineEnd?, dropBlanks, dropBlanks, List.dropWhile_idempotent]
  rw [Statement.readAll?]
  split
  · rename_i empty
    exact absurd empty visible
  · rw [again, ended]

section Assignment

variable {key : String}

theorem read?_assign (named : key ≠ "") (bare : ∀ char ∈ key.toList, isKeyChar char = true)
    (before after : Blanks) :
    Statement.read? (key.toList ++ (before.chars ++ '=' :: (after.chars ++ text))) =
      (Value.read? ((after.chars ++ text).length + 1) (dropBlanks text)).bind fun (value, rest) =>
        (lineEnd? rest).map fun rest => (Statement.ofEntry (key, value), rest) := by
  have path := keyPath?_bare named bare before
    (key.toList ++ (before.chars ++ '=' :: (after.chars ++ text))).length (after.chars ++ text)
  unfold Statement.read?
  split
  · rename_i starts
    obtain ⟨first, others, chars, inKey⟩ := exists_key named bare
    rw [chars] at starts
    cases starts
    exact absurd inKey (by decide)
  · rw [path]
    simp only [Option.bind_eq_bind, Option.bind_some, dropBlanks_append]
    rfl

/-- A line that gives a bare key a value. -/
theorem readAll?_assign (named : key ≠ "") (bare : ∀ char ∈ key.toList, isKeyChar char = true)
    (indent before after : Blanks) (text : List Char) (fuel : Nat) :
    Statement.readAll? (fuel + 1)
        (indent.chars ++ (key.toList ++ (before.chars ++ '=' :: (after.chars ++ text)))) =
      (Value.read? ((after.chars ++ text).length + 1) (dropBlanks text)).bind fun (value, rest) =>
        (lineEnd? rest).bind fun rest =>
          (Statement.readAll? fuel rest).map (Statement.ofEntry (key, value) :: ·) := by
  obtain ⟨first, others, chars, inKey⟩ := exists_key named bare
  have visible : dropBlanks (key.toList ++ (before.chars ++ '=' :: (after.chars ++ text))) =
      key.toList ++ (before.chars ++ '=' :: (after.chars ++ text)) :=
    dropBlanks_eq (by rw [chars]; rintro _ ⟨⟩; exact isBlank_of_isKeyChar inKey)
  have goesOn : lineEnd? (key.toList ++ (before.chars ++ '=' :: (after.chars ++ text))) = none := by
    rw [chars]
    exact lineEnd?_key inKey
  rw [Statement.readAll?, dropBlanks_append, visible]
  split
  · rename_i empty
    rw [chars] at empty
    cases empty
  · rw [goesOn, read?_assign named bare before after]
    cases Value.read? ((after.chars ++ text).length + 1) (dropBlanks text) with
    | none => rfl
    | some found =>
        cases ended : lineEnd? found.2 with
        | none => simp [ended]
        | some rest => cases more : Statement.readAll? fuel rest <;> simp [ended, more]

end Assignment

theorem name_bare (setting : Setting) :
    setting.name ≠ "" ∧ ∀ char ∈ setting.name.toList, isKeyChar char = true := by
  cases setting <;> (rw [Setting.name]; exact ⟨by decide, List.all_eq_true.mp (by decide)⟩)

theorem valueChars_visible (setting : Setting) (mark : Mark) :
    ∀ char ∈ (setting.valueChars mark ++ rest).head?, isBlank char = false := by
  have number (count : Nat) : ∀ char ∈ ((toString count).toList ++ rest).head?,
      isBlank char = false := by
    rw [Nat.toString_eq_ofList_toDigits, String.toList_ofList]
    obtain ⟨first, others, chars⟩ :=
      List.exists_cons_of_ne_nil (Nat.toDigits_ne_nil (n := count) (b := 10))
    have isDigit : first.isDigit = true := Nat.isDigit_of_mem_toDigits (b := 10) (n := count)
      (by decide) (by decide) (by simp [chars])
    rw [chars]
    rintro _ ⟨⟩
    exact isBlank_of_isKeyChar (by simp [isKeyChar, Char.isAlphanum, isDigit])
  cases setting with
  | stateKind kind => cases mark <;> rintro _ ⟨⟩ <;> decide
  | maxVisited count => exact number count
  | timeoutMs milliseconds => exact number milliseconds
  | initialCapacity capacity => exact number capacity
  | tracksMeeting tracks => cases tracks <;> rintro _ ⟨⟩ <;> decide

/-- The statements that give settings, if all of them can be written. -/
def statements? (settings : List Setting) : Option (List Statement) :=
  if ∀ setting ∈ settings, setting.Writable then
    some ((settings.map Setting.entry).map .ofEntry)
  else none

@[simp] theorem statements?_nil : statements? [] = some [] := rfl

theorem statements?_append (first second : List Setting) :
    statements? (first ++ second) =
      (statements? first).bind fun before => (statements? second).map (before ++ ·) := by
  unfold statements?
  by_cases here : ∀ setting ∈ first, setting.Writable
  · by_cases there : ∀ setting ∈ second, setting.Writable
    · rw [if_pos here, if_pos there, if_pos (List.forall_mem_append.mpr ⟨here, there⟩)]
      simp
    · rw [if_pos here, if_neg there, if_neg fun both => there (List.forall_mem_append.mp both).2]
      rfl
  · rw [if_neg here, if_neg fun both => here (List.forall_mem_append.mp both).1]
    rfl

theorem written_append (first second : List Line) :
    written (first ++ second) = written first ++ written second :=
  List.filterMap_append

theorem written_singleton (line : Line) : written [line] = line.setting?.toList := by
  rw [written, List.filterMap_cons]
  cases line.setting? <;> rfl

namespace Line

/-- A value ends where the rest of its line starts. -/
theorem tail_stops (line : Line)
    (stops : ∀ char ∈ rest.head?, Value.isWordChar char = false) :
    ∀ char ∈ (line.tail ++ rest).head?, Value.isWordChar char = false := by
  rw [tail, List.append_assoc]
  cases chars : line.trailing.chars with
  | nil =>
      cases line.remark with
      | none => exact stops
      | some remark =>
          rintro _ ⟨⟩
          decide
  | cons first others =>
      rintro _ ⟨⟩
      rcases blank_cases (line.trailing.blank first (by simp [chars])) with rfl | rfl <;> decide

theorem lineEnd?_append (blanks : Blanks) : lineEnd? (blanks.chars ++ text) = lineEnd? text := by
  rw [lineEnd?, dropBlanks_append, ← lineEnd?]

/-- An assignment is read as the setting that it gives. -/
theorem readAll?_assignment (indent : Blanks) (assignment : Assignment)
    (stops : ∀ char ∈ rest.head?, Value.isWordChar char = false) :
    Statement.readAll? (fuel + 1) (indent.chars ++ (assignment.chars ++ rest)) =
      (statements? [assignment.setting]).bind fun given =>
        (lineEnd? rest).bind fun rest => (Statement.readAll? fuel rest).map (given ++ ·) := by
  obtain ⟨named, bare⟩ := name_bare assignment.setting
  have read := readAll?_assign named bare indent assignment.beforeSign assignment.afterSign
    (assignment.setting.valueChars assignment.mark ++ rest) fuel
  rw [dropBlanks_eq (valueChars_visible _ _),
    Value.read?_valueChars assignment.setting assignment.mark _ stops] at read
  simp only [Assignment.chars, List.append_assoc, List.cons_append]
  rw [read, statements?]
  simp only [List.forall_mem_singleton]
  split <;> rfl

/-- A line with its line end is read as the setting that it gives. -/
theorem readAll?_ended (line : Line) (fuel : Nat) (rest : List Char) :
    Statement.readAll? (fuel + 1) (line.chars ++ (line.ending.chars ++ rest)) =
      (statements? line.setting?.toList).bind fun given =>
        (Statement.readAll? fuel rest).map (given ++ ·) := by
  have ended := line.lineEnd?_tail rest
  rw [chars, setting?, List.append_assoc, List.append_assoc]
  cases line.assignment with
  | none =>
      have visible : dropBlanks (line.indent.chars ++
          (line.tail ++ (line.ending.chars ++ rest))) ≠ [] := fun empty => by
        have blank := List.dropWhile_eq_nil_iff.mp empty '\n'
          (by cases line.ending <;> simp [LineEnd.chars])
        cases blank
      rw [Option.elim_none, List.nil_append,
        readAll?_gap visible ((lineEnd?_append line.indent).trans ended)]
      simp
  | some assignment =>
      rw [Option.elim_some, readAll?_assignment _ _ (line.tail_stops (by
        cases line.ending <;> rintro _ ⟨⟩ <;> decide)), ended]
      rfl

/-- The last line ends with the text. -/
theorem readAll?_last (line : Line) {fuel : Nat} (enough : line.chars.length < fuel) :
    Statement.readAll? fuel line.chars = statements? line.setting?.toList := by
  have ended := line.lineEnd?_tail_end
  obtain ⟨fuel, rfl⟩ := Nat.exists_eq_succ_of_ne_zero (Nat.ne_zero_of_lt enough)
  have done (more : line.chars ≠ []) : Statement.readAll? fuel [] = some [] := by
    have positive := List.length_pos_of_ne_nil more
    obtain ⟨fuel, rfl⟩ : ∃ before, fuel = before + 1 :=
      Nat.exists_eq_succ_of_ne_zero (by omega)
    exact readAll?_nil fuel
  rw [chars, setting?] at *
  cases found : line.assignment with
  | none =>
      rw [found, Option.elim_none, List.nil_append] at done
      rw [Option.elim_none, List.nil_append]
      by_cases visible : dropBlanks (line.indent.chars ++ line.tail) = []
      · rw [Statement.readAll?, visible]
        rfl
      · rw [readAll?_gap visible ((lineEnd?_append line.indent).trans ended), done]
        · rfl
        · intro empty
          exact visible (by rw [empty]; rfl)
  | some assignment =>
      have stops : ∀ char ∈ (line.tail ++ []).head?, Value.isWordChar char = false :=
        line.tail_stops (by simp)
      rw [List.append_nil] at stops
      have more : line.indent.chars ++ (assignment.chars ++ line.tail) ≠ [] := by
        simp [Assignment.chars]
      rw [found] at done
      rw [Option.elim_some, readAll?_assignment _ _ stops, ended]
      simp only [Option.bind_some, done more, Option.map_some, List.append_nil,
        Option.bind_fun_some]
      rfl

end Line

/-- A stray line is read with all that follows its value. -/
theorem StrayLine.readAll?_stray (stray : StrayLine) (fuel : Nat)
    (visible : ∀ char ∈ rest.head?, isBlank char = false) :
    Statement.readAll? (fuel + 1) (stray.chars ++ rest) =
      (Value.read? ((stray.afterSign.chars ++ (stray.value ++ rest)).length + 1)
        (stray.value ++ rest)).bind fun (value, left) => (lineEnd? left).bind fun next =>
          (Statement.readAll? fuel next).map (Statement.ofEntry (stray.key, value) :: ·) := by
  have starts : dropBlanks (stray.value ++ rest) = stray.value ++ rest := by
    refine dropBlanks_eq fun char first => ?_
    cases chars : stray.value with
    | nil => exact visible char (by simpa [chars] using first)
    | cons head others => exact stray.visible char (by simpa [chars] using first)
  have read := readAll?_assign stray.named stray.bare stray.indent stray.beforeSign stray.afterSign
    (stray.value ++ rest) fuel
  rw [starts] at read
  simpa only [StrayLine.chars, List.append_assoc, List.cons_append] using read

section Opening

/-- Whether a line that is not empty can start with a character. -/
def opensLine (char : Char) : Bool := isBlank char || isKeyChar char || char = '#'

theorem opens_blanks (blanks : Blanks) (opens : ∀ char ∈ rest.head?, opensLine char = true) :
    ∀ char ∈ (blanks.chars ++ rest).head?, opensLine char = true := by
  cases chars : blanks.chars with
  | nil => exact opens
  | cons first others =>
      rintro _ ⟨⟩
      simp [opensLine, blanks.blank first (by simp [chars])]

theorem opens_key {key : String} (named : key ≠ "")
    (bare : ∀ char ∈ key.toList, isKeyChar char = true) :
    ∀ char ∈ (key.toList ++ rest).head?, opensLine char = true := by
  obtain ⟨first, others, chars, inKey⟩ := exists_key named bare
  rw [chars]
  rintro _ ⟨⟩
  simp [opensLine, inKey]

theorem Line.opens (line : Line) : ∀ char ∈ line.chars.head?, opensLine char = true := by
  refine opens_blanks line.indent ?_
  cases line.assignment with
  | none =>
      refine opens_blanks line.trailing ?_
      cases line.remark with
      | none => simp
      | some remark =>
          rintro _ ⟨⟩
          rfl
  | some assignment =>
      obtain ⟨named, bare⟩ := name_bare assignment.setting
      rw [Option.elim_some, Assignment.chars, List.append_assoc]
      exact opens_key named bare

theorem StrayLine.opens (stray : StrayLine) : ∀ char ∈ stray.chars.head?, opensLine char = true :=
  opens_blanks stray.indent (opens_key stray.named stray.bare)

end Opening

/-- The lines of a text with their line ends. -/
def endedLines (lines : List Line) : List Char :=
  lines.flatMap fun line => line.chars ++ line.ending.chars

theorem joinLines_append (before : List Line) (row : List Char × LineEnd)
    (after : List (List Char × LineEnd)) :
    joinLines (before.map Line.row ++ row :: after) =
      endedLines before ++ joinLines (row :: after) := by
  induction before with
  | nil => rfl
  | cons line before ih =>
      rw [endedLines, List.flatMap_cons, ← endedLines, List.append_assoc, ← ih]
      cases before <;> simp [Line.row, joinLines]

/-- Lines are read as the settings that they give. -/
theorem readAll?_endedLines (lines : List Line) (fuel : Nat) (rest : List Char) :
    Statement.readAll? (lines.length + fuel) (endedLines lines ++ rest) =
      (statements? (written lines)).bind fun given =>
        (Statement.readAll? fuel rest).map (given ++ ·) := by
  induction lines with
  | nil =>
      rw [List.length_nil, Nat.zero_add]
      change Statement.readAll? fuel rest = (Statement.readAll? fuel rest).map id
      rw [Option.map_id, id]
  | cons line lines ih =>
      have first := line.readAll?_ended (lines.length + fuel) (endedLines lines ++ rest)
      rw [ih] at first
      rw [List.length_cons, Nat.add_right_comm, endedLines, List.flatMap_cons, ← endedLines,
        List.append_assoc, List.append_assoc, first, ← List.singleton_append (x := line),
        written_append, written_singleton, statements?_append]
      cases statements? line.setting?.toList with
      | none => rfl
      | some before =>
          cases statements? (written lines) with
          | none => rfl
          | some after => simp [Function.comp_def]

theorem length_le_endedLines (lines : List Line) : lines.length ≤ (endedLines lines).length := by
  induction lines with
  | nil => exact Nat.le_refl 0
  | cons line lines ih =>
      have ending : 0 < line.ending.chars.length := by cases line.ending <;> decide
      rw [endedLines, List.flatMap_cons, ← endedLines, List.length_append, List.length_append,
        List.length_cons]
      omega

/-- A text is read as the settings that its lines give. -/
theorem readAll?_joinLines (lines : List Line) {fuel : Nat}
    (enough : (joinLines (lines.map Line.row)).length < fuel) :
    Statement.readAll? fuel (joinLines (lines.map Line.row)) = statements? (written lines) := by
  rcases lines.eq_nil_or_concat' with rfl | ⟨before, last, rfl⟩
  · obtain ⟨fuel, rfl⟩ := Nat.exists_eq_succ_of_ne_zero (Nat.ne_zero_of_lt enough)
    exact readAll?_nil fuel
  · have text : joinLines ((before ++ [last]).map Line.row) = endedLines before ++ last.chars := by
      rw [List.map_append]
      exact joinLines_append before last.row []
    have room := length_le_endedLines before
    rw [text, List.length_append] at enough
    obtain ⟨left, rfl⟩ : ∃ left, fuel = before.length + left := Nat.exists_eq_add_of_le (by omega)
    rw [text, readAll?_endedLines, last.readAll?_last (by omega), written_append,
      written_singleton, statements?_append]

end RouteSearch.Settings
