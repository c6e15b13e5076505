/-
This file proves that a value which goes on behind its line, into lines that give settings, is no
value of a setting: a string would take in a sign or a comment, and a list would not close.
-/

import RouteSearch.Proofs.SettingsForeign
import RouteSearch.Proofs.SettingsLines

namespace RouteSearch.Settings

namespace Text

/-- The text is at the start of a line, and lines without a setting stand before one that gives a
bare key something. -/
inductive LineStart : List Char → Prop where
  | assignment (indent before : Blanks) {key : String} (rest : List Char) (named : key ≠ "")
      (bare : ∀ char ∈ key.toList, isKeyChar char = true) :
      LineStart (indent.chars ++ (key.toList ++ (before.chars ++ '=' :: rest)))
  | gap {line : Line} {next : List Char} (empty : line.assignment = none)
      (start : LineStart next) : LineStart (line.chars ++ (line.ending.chars ++ next))

theorem lineStart_joinLines {lines : List Line} (given : written lines ≠ []) :
    LineStart (joinLines (lines.map Line.row)) := by
  induction lines with
  | nil => exact absurd rfl given
  | cons line lines ih =>
      cases assignment : line.assignment with
      | none =>
          have later : written lines ≠ [] := by
            rw [← List.singleton_append, written_append, written_singleton, Line.setting?,
              assignment] at given
            exact given
          obtain ⟨next, others, rfl⟩ := List.exists_cons_of_ne_nil (l := lines) (by
            rintro rfl
            exact later rfl)
          exact .gap assignment (ih later)
      | some found =>
          obtain ⟨named, bare⟩ := name_bare found.setting
          obtain ⟨rest, whole⟩ : ∃ rest, joinLines ((line :: lines).map Line.row) =
              line.chars ++ rest := by
            cases lines with
            | nil => exact ⟨[], (List.append_nil _).symm⟩
            | cons next lines => exact ⟨_, rfl⟩
          rw [whole, Line.chars, assignment, Option.elim_some, Assignment.chars]
          simp only [List.append_assoc, List.cons_append]
          exact .assignment line.indent found.beforeSign _ named bare

section Lists

variable {after text rest : List Char} {fuel : Nat}

theorem LineStart.notBracket (start : LineStart text) : text.head? ≠ some ']' := by
  intro bracket
  cases start with
  | assignment indent before rest named bare =>
      exact absurd (opens_blanks indent (opens_key named bare) ']' bracket) (by decide)
  | @gap line next empty start =>
      have opens := line.opens
      cases chars : line.chars with
      | nil =>
          rw [chars, List.nil_append] at bracket
          revert bracket
          cases line.ending <;> rintro ⟨⟩
      | cons first others =>
          rw [chars] at bracket opens
          exact absurd (opens ']' bracket) (by decide)

/-- No line starts with a bracket that closes a list. -/
theorem LineStart.dropGaps (start : LineStart text) (fuel : Nat) :
    (dropGaps true fuel text).head? ≠ some ']' := by
  induction start generalizing fuel with
  | @assignment indent before key rest named bare =>
      cases fuel with
      | zero => exact (LineStart.assignment indent before rest named bare).notBracket
      | succ fuel =>
          obtain ⟨first, others, chars, inKey⟩ := exists_key named bare
          have visible : dropBlanks (first :: (others ++ (before.chars ++ '=' :: rest))) =
              first :: (others ++ (before.chars ++ '=' :: rest)) :=
            dropBlanks_eq (by rintro _ ⟨⟩; exact isBlank_of_isKeyChar inKey)
          rw [Text.dropGaps, dropBlanks_append, chars, List.cons_append, visible]
          simp only [if_true, dropComment_key inKey, newline?_key inKey]
          rintro ⟨⟩
          exact absurd inKey (by decide)
  | @gap line next empty start ih =>
      cases fuel with
      | zero => exact (LineStart.gap empty start).notBracket
      | succ fuel =>
          have empty : dropComment (dropBlanks (line.chars ++ (line.ending.chars ++ next))) =
              line.ending.chars ++ next := by
            rw [Line.chars, empty, Option.elim_none, List.nil_append, List.append_assoc,
              dropBlanks_append]
            exact line.dropComment_tail (by cases line.ending <;> rintro _ ⟨⟩ <;> decide)
          have ended : newline? (line.ending.chars ++ next) = some next := by
            cases line.ending <;> rfl
          rw [Text.dropGaps]
          simp only [if_true, empty, ended]
          exact ih fuel

/-- A list without content closes on its line. -/
theorem RestOfLine.emptyList (line : RestOfLine after text) (start : LineStart after)
    (closed : dropGaps true fuel text = ']' :: rest) : RestOfLine after rest := by
  cases fuel with
  | zero =>
      cases closed
      exact line.of_cons (by decide)
  | succ fuel =>
      have left : RestOfLine after (dropBlanks text) := line.dropWhile (by decide)
      rw [Text.dropGaps] at closed
      simp only [if_true] at closed
      split at closed
      · rename_i next ended
        rw [left.dropComment.eq_of_newline? ended] at closed
        exact absurd (by rw [closed]; rfl) (start.dropGaps fuel)
      · rw [closed] at left
        exact left.of_cons (by decide)

end Lists

section Strings

variable {after text rest body : List Char} {fuel : Nat} {mark : Mark}

/-- A comment or a sign is still to come, behind keys and gaps only. -/
def SignAhead (text : List Char) : Prop :=
  ∃ front char rest, text = front ++ char :: rest ∧ (char = '#' ∨ char = '=') ∧
    ∀ other ∈ front, isKeyChar other = true ∨ isBlank other = true ∨ other = '\n' ∨ other = '\r'

theorem mem_ending {ending : LineEnd} {char : Char} (member : char ∈ ending.chars) :
    char = '\n' ∨ char = '\r' := by
  cases ending <;> simp only [LineEnd.chars, List.mem_cons, List.not_mem_nil, or_false] at member
  · exact .inl member
  · exact member.symm

theorem LineStart.signAhead (start : LineStart text) : SignAhead text := by
  induction start with
  | @assignment indent before key rest named bare =>
      refine ⟨indent.chars ++ (key.toList ++ before.chars), '=', rest, by simp, .inr rfl, ?_⟩
      intro char member
      simp only [List.mem_append] at member
      rcases member with inIndent | inKey | inBefore
      · exact .inr (.inl (indent.blank char inIndent))
      · exact .inl (bare char inKey)
      · exact .inr (.inl (before.blank char inBefore))
  | @gap line next empty start ih =>
      rw [Line.chars, empty, Option.elim_none, List.nil_append, Line.tail]
      cases line.remark with
      | none =>
          obtain ⟨front, sign, rest, rfl, isSign, inert⟩ := ih
          refine ⟨line.indent.chars ++ (line.trailing.chars ++ (line.ending.chars ++ front)), sign,
            rest, by simp, isSign, ?_⟩
          intro char member
          simp only [List.mem_append] at member
          rcases member with inIndent | inTrailing | inEnding | inFront
          · exact .inr (.inl (line.indent.blank char inIndent))
          · exact .inr (.inl (line.trailing.blank char inTrailing))
          · exact .inr (.inr (mem_ending inEnding))
          · exact inert char inFront
      | some remark =>
          refine ⟨line.indent.chars ++ line.trailing.chars, '#',
            remark.words ++ (line.ending.chars ++ next), by simp, .inl rfl, ?_⟩
          intro char member
          rcases List.mem_append.mp member with inIndent | inTrailing
          · exact .inr (.inl (line.indent.blank char inIndent))
          · exact .inr (.inl (line.trailing.blank char inTrailing))

theorem SignAhead.exists_cons (ahead : SignAhead text) : ∃ char others, text = char :: others ∧
    (∀ mark : Mark, char ≠ mark.char) ∧ char ≠ '\x5c' := by
  obtain ⟨front, sign, rest, rfl, isSign, inert⟩ := ahead
  cases front with
  | nil =>
      refine ⟨sign, rest, rfl, fun mark => ?_, ?_⟩
      · rcases isSign with rfl | rfl <;> cases mark <;> decide
      · rcases isSign with rfl | rfl <;> decide
  | cons first front =>
      have other (char : Char) (apart : (isKeyChar char || isBlank char || char = '\n' ||
          char = '\r') = false) : first ≠ char := by
        rintro rfl
        have found := inert first (by simp)
        simp_all
      exact ⟨first, front ++ sign :: rest, rfl,
        fun mark => other _ (by cases mark <;> decide), other _ (by decide)⟩

theorem SignAhead.of_cons {char : Char} (ahead : SignAhead (char :: text))
    (other : char ≠ '#' ∧ char ≠ '=') : SignAhead text := by
  obtain ⟨front, sign, rest, whole, isSign, inert⟩ := ahead
  cases front with
  | nil =>
      cases whole
      rcases isSign with rfl | rfl
      · exact absurd rfl other.1
      · exact absurd rfl other.2
  | cons first front =>
      cases whole
      exact ⟨front, sign, rest, rfl, isSign, fun char member =>
        inert char (List.mem_cons_of_mem _ member)⟩

theorem SignAhead.newline? (ahead : SignAhead text) (ended : newline? text = some rest) :
    SignAhead rest := by
  unfold Text.newline? at ended
  split at ended
  · cases ended
    exact ahead.of_cons (by decide)
  · cases ended
    exact (ahead.of_cons (by decide)).of_cons (by decide)
  · cases ended

theorem SignAhead.dropBlanks (ahead : SignAhead text) : SignAhead (Text.dropBlanks text) := by
  induction text with
  | nil => exact ahead
  | cons first text ih =>
      rw [Text.dropBlanks, List.dropWhile_cons]
      split
      · rename_i blank
        refine ih (ahead.of_cons ?_)
        rcases blank_cases blank with rfl | rfl <;> decide
      · exact ahead

theorem SignAhead.dropGaps (ahead : SignAhead text) (fuel : Nat) :
    SignAhead (Text.dropGaps false fuel text) := by
  induction fuel generalizing text with
  | zero => exact ahead
  | succ fuel ih =>
      rw [Text.dropGaps]
      simp only [Bool.false_eq_true, if_false]
      split
      · rename_i next ended
        exact ih (ahead.dropBlanks.newline? ended)
      · exact ahead.dropBlanks

/-- A string that has not ended before a sign or a comment takes it in. -/
theorem SignAhead.body? (ahead : SignAhead text)
    (read : Enclosure.body? ⟨mark.char, true⟩ fuel text = some (body, rest)) :
    '#' ∈ body ∨ '=' ∈ body := by
  induction fuel generalizing text body with
  | zero => cases read
  | succ fuel ih =>
      obtain ⟨char, others, rfl, noMark, noEscape⟩ := ahead.exists_cons
      rcases body?_cases read with closed | ⟨-, piece, between, inner, readPiece, readInner, rfl⟩
      · rw [close?_of_ne (noMark mark)] at closed
        cases closed
      · rw [Enclosure.piece?, if_neg (by simp [noEscape])] at readPiece
        simp only [List.mem_append]
        split at readPiece
        · cases readPiece
          by_cases sign : char = '#' ∨ char = '='
          · rcases sign with rfl | rfl <;> simp
          · exact (ih (ahead.of_cons (not_or.mp sign)) readInner).imp .inr .inr
        · obtain ⟨next, ended, whole⟩ := Option.map_eq_some_iff.mp readPiece
          cases whole
          exact (ih (ahead.newline? ended) readInner).imp .inr .inr

/-- A string of several lines stays on its line, or takes in a comment or a sign. -/
theorem RestOfLine.body_several (line : RestOfLine after text) (ahead : SignAhead after)
    (read : Enclosure.body? ⟨mark.char, true⟩ fuel text = some (body, rest)) :
    RestOfLine after rest ∨ '#' ∈ body ∨ '=' ∈ body := by
  induction fuel generalizing text body with
  | zero => cases read
  | succ fuel ih =>
      rcases body?_cases read with closed | ⟨-, piece, between, inner, readPiece, readInner, rfl⟩
      · exact .inl (line.close? closed)
      · have found : RestOfLine after rest ∨ '#' ∈ inner ∨ '=' ∈ inner := by
          rcases line.piece? readPiece with goesOn | ⟨-, gaps, rfl⟩
          · exact ih goesOn readInner
          · exact .inr ((ahead.dropGaps gaps).body? readInner)
        exact found.imp_right (Or.imp (List.mem_append_right _) (List.mem_append_right _))

/-- So does a string of either kind. -/
theorem RestOfLine.string {text rest : List Char} {body : String} (line : RestOfLine after text)
    (ahead : SignAhead after) (read : string? mark.char text = some (body, rest)) :
    RestOfLine after rest ∨ '#' ∈ body.toList ∨ '=' ∈ body.toList := by
  unfold string? at read
  split at read
  · rename_i second third others
    split at read
    · rename_i marks
      simp only [Bool.and_eq_true, decide_eq_true_eq] at marks
      obtain ⟨⟨inner, left⟩, known, whole⟩ := Option.map_eq_some_iff.mp read
      cases whole
      rw [String.toList_ofList]
      have noFeed (char : Char) (isMark : char = mark.char) : char ≠ '\n' := by
        rw [isMark]
        cases mark <;> decide
      have opened : RestOfLine after others :=
        (line.of_cons (noFeed second marks.1)).of_cons (noFeed third marks.2)
      cases ended : newline? others with
      | none =>
          rw [ended, Option.getD_none] at known
          exact opened.body_several ahead known
      | some next =>
          rw [ended, Option.getD_some, opened.eq_of_newline? ended] at known
          exact .inr (ahead.body? known)
    · exact .inl (line.lineString mark read)
  · exact .inl (line.lineString mark read)

end Strings

section Keys

variable {after text rest : List Char}

theorem RestOfLine.key {key : String} (line : RestOfLine after text)
    (read : key? text = some (key, rest)) : RestOfLine after rest := by
  unfold key? at read
  split at read
  · exact (line.of_cons (by decide)).lineString .double read
  · exact (line.of_cons (by decide)).lineString .single read
  · split at read
    · cases read
    · cases read
      exact line.dropWhile (by decide)

/-- Keys stay on their line. -/
theorem RestOfLine.keyPath {fuel : Nat} {path : List String} (line : RestOfLine after text)
    (read : keyPath? fuel text = some (path, rest)) : RestOfLine after rest := by
  induction fuel generalizing text path with
  | zero => cases read
  | succ fuel ih =>
      rw [keyPath?] at read
      obtain ⟨⟨key, left⟩, readKey, read⟩ := Option.bind_eq_some_iff.mp read
      have goesOn : RestOfLine after (dropBlanks left) :=
        ((line.dropWhile (by decide)).key readKey).dropWhile (by decide)
      dsimp only at read
      split at read
      · rename_i others more
        rw [more] at goesOn
        obtain ⟨⟨keys, last⟩, readKeys, whole⟩ := Option.bind_eq_some_iff.mp read
        cases whole
        exact ih (goesOn.of_cons (by decide)) readKeys
      · cases read
        exact goesOn

end Keys

end Text

open Text

namespace Value

variable {after text rest : List Char} {value : Value} {fuel : Nat}

/-- What a value becomes that takes in the lines behind it. -/
inductive Spilled : Value → Prop where
  | string {body : String} (taken : '#' ∈ body.toList ∨ '=' ∈ body.toList) : Spilled (.string body)
  | table {entries : Entries} (loaded : entries.Loaded) : Spilled (.table .inline entries)

theorem Spilled.not_isEmpty (spilled : value.Spilled) : ¬ value.IsEmpty := by
  cases spilled with
  | string taken => exact id
  | table loaded =>
      rintro rfl
      obtain ⟨entry, held, -⟩ := loaded
      cases held

/-- No setting takes such a value. -/
theorem Spilled.not_takes {kind : Setting.Kind} (spilled : value.Spilled) : ¬ kind.Takes value := by
  intro takes
  cases spilled with
  | @string body taken =>
      cases takes with
      | name known =>
          unfold StateKind.ofName? at known
          split at known
          · exact absurd taken (by decide)
          · exact absurd taken (by decide)
          · exact known rfl
  | table loaded =>
      cases takes with
      | table _ _ empty =>
          obtain ⟨entry, held, filled⟩ := loaded
          rw [List.mem_singleton.mp held] at filled
          exact filled empty

section Reading

/-- Values stay on their line, or take in what no setting can use. -/
def ValuesEnd (after : List Char) (fuel : Nat) : Prop :=
  ∀ text value rest, RestOfLine after text → Value.read? fuel text = some (value, rest) →
    RestOfLine after rest ∨ value.Spilled

/-- So do tables in braces. -/
def EntriesEnd (after : List Char) (fuel : Nat) : Prop :=
  ∀ text known entries rest, RestOfLine after text →
    Value.readEntries? fuel known text = some (entries, rest) →
    RestOfLine after rest ∨ Entries.Loaded entries

theorem restOfLine_string (mark : Mark) (start : LineStart after)
    (line : RestOfLine after (mark.char :: text))
    (read : (string? mark.char text).map (fun (body, rest) => (Value.string body, rest)) =
      some (value, rest)) : RestOfLine after rest ∨ value.Spilled := by
  obtain ⟨⟨body, left⟩, known, whole⟩ := Option.map_eq_some_iff.mp read
  cases whole
  have opened : RestOfLine after text := line.of_cons (by cases mark <;> decide)
  exact (opened.string start.signAhead known).imp_right .string

theorem EntriesEnd.values (start : LineStart after) (entriesEnd : EntriesEnd after fuel) :
    ValuesEnd after (fuel + 1) := by
  intro text value rest line read
  unfold Value.read? at read
  split at read
  · exact restOfLine_string .double start line read
  · exact restOfLine_string .single start line read
  · split at read
    · rename_i closed
      cases read
      exact .inl ((line.of_cons (by decide)).emptyList start closed)
    · cases read
  · rename_i others
    have opened : RestOfLine after (dropBlanks others) :=
      (line.of_cons (by decide)).dropWhile (by decide)
    split at read
    · rename_i closed
      cases read
      rw [closed] at opened
      exact .inl (opened.of_cons (by decide))
    · obtain ⟨⟨entries, left⟩, known, whole⟩ := Option.map_eq_some_iff.mp read
      cases whole
      exact (entriesEnd _ _ _ _ opened known).imp_right .table
  · obtain ⟨found, -, whole⟩ := Option.map_eq_some_iff.mp read
    cases whole
    exact .inl (line.dropWhile (by decide))

theorem EntriesEnd.step (valuesEnd : ValuesEnd after fuel) (entriesEnd : EntriesEnd after fuel) :
    EntriesEnd after (fuel + 1) := by
  intro text known entries rest line read
  obtain ⟨path, others, new, behind, later, readPath, readValue, assigned, ends⟩ :=
    readEntries?_cases read
  have sign : RestOfLine after others := (line.keyPath readPath).of_cons (by decide)
  have goesOn : RestOfLine after (dropBlanks behind) ∨ later.Loaded := by
    rcases valuesEnd _ _ _ (sign.dropWhile (by decide)) readValue with onLine | spilled
    · exact .inl (onLine.dropWhile (by decide))
    · exact .inr (assigned.loaded (.inr (.inl spilled.not_isEmpty)))
  rcases ends with ⟨closed, rfl⟩ | ⟨next, comma, more⟩
  · rw [closed] at goesOn
    exact goesOn.imp_left (·.of_cons (by decide))
  · rw [comma] at goesOn
    -- once a value has spilled, it stays in the table, wherever the table ends
    rcases goesOn with onLine | loaded
    · exact entriesEnd _ _ _ _ (onLine.of_cons (by decide)) more
    · exact .inr ((readEntries?_keeps more).1 loaded)

/-- Before lines that give settings, a value ends on its line or is none that a setting takes. -/
theorem valuesEnd (start : LineStart after) (fuel : Nat) : ValuesEnd after fuel := by
  -- a table in braces reads its values, and a value its table, with less fuel
  have both : ValuesEnd after fuel ∧ EntriesEnd after fuel := by
    induction fuel with
    | zero =>
        refine ⟨fun text value rest line read => ?_, fun text known entries rest line read => ?_⟩
        · cases read
        · cases read
    | succ fuel ih => exact ⟨ih.2.values start, ih.2.step ih.1⟩
  exact both.1

end Reading

end Value

end RouteSearch.Settings
