/-
This file proves how the smallest parts of a settings text are read back.
-/

import RouteSearch.Settings.StrayLine
import Mathlib.Data.List.TakeWhile

namespace RouteSearch.Settings

namespace Text

section Gaps

variable {char : Char} {rest : List Char}

/-- Where a word ends, the reader stops. -/
theorem takeWhile_word {holds : Char → Bool} {word : List Char}
    (inside : ∀ char ∈ word, holds char = true) (stops : ∀ char ∈ rest.head?, holds char = false) :
    (word ++ rest).takeWhile holds = word ∧ (word ++ rest).dropWhile holds = rest := by
  rw [List.takeWhile_append_of_pos inside, List.dropWhile_append_of_pos inside]
  cases rest with
  | nil => simp
  | cons char rest =>
      have stop : holds char = false := stops char rfl
      simp [stop]

@[simp] theorem dropBlanks_append (blanks : Blanks) :
    dropBlanks (blanks.chars ++ rest) = dropBlanks rest :=
  List.dropWhile_append_of_pos blanks.blank

theorem dropBlanks_eq (visible : ∀ char ∈ rest.head?, isBlank char = false) :
    dropBlanks rest = rest :=
  (takeWhile_word (List.forall_mem_nil _) visible).2

theorem dropComment_of_ne (other : char ≠ '#') : dropComment (char :: rest) = char :: rest := by
  unfold dropComment
  split
  · rename_i same
    exact absurd (List.cons.inj same).1 other
  · rfl

/-- No line ends before a character that is no line end. -/
theorem newline?_eq_none (starts : ∀ char ∈ rest.head?, char ≠ '\n' ∧ char ≠ '\r') :
    newline? rest = none := by
  unfold newline?
  split
  · exact absurd rfl (starts '\n' rfl).1
  · exact absurd rfl (starts '\r' rfl).2
  · rfl

theorem dropComment_remark (remark : Remark)
    (stops : ∀ char ∈ rest.head?, isPlain char = false) :
    dropComment ('#' :: remark.words ++ rest) = rest :=
  (takeWhile_word remark.plain stops).2

end Gaps

section Keys

variable {key : String} {rest : List Char}

theorem blank_cases {char : Char} (blank : isBlank char = true) : char = ' ' ∨ char = '\t' := by
  simpa [isBlank] using blank

theorem isBlank_of_isKeyChar {char : Char} (inKey : isKeyChar char = true) :
    isBlank char = false := by
  rw [Bool.eq_false_iff]
  intro blank
  rcases blank_cases blank with rfl | rfl <;> exact absurd inKey (by decide)

theorem exists_key (named : key ≠ "") (bare : ∀ char ∈ key.toList, isKeyChar char = true) :
    ∃ first others, key.toList = first :: others ∧ isKeyChar first = true := by
  obtain ⟨first, others, chars⟩ := List.exists_cons_of_ne_nil (mt String.toList_eq_nil_iff.mp named)
  exact ⟨first, others, chars, bare first (by simp [chars])⟩

theorem key?_bare (named : key ≠ "") (bare : ∀ char ∈ key.toList, isKeyChar char = true)
    (stops : ∀ char ∈ rest.head?, isKeyChar char = false) :
    key? (key.toList ++ rest) = some (key, rest) := by
  obtain ⟨taken, left⟩ := takeWhile_word bare stops
  obtain ⟨first, others, chars, inKey⟩ := exists_key named bare
  unfold key?
  split
  · rename_i starts
    rw [chars] at starts
    cases starts
    exact absurd inKey (by decide)
  · rename_i starts
    rw [chars] at starts
    cases starts
    exact absurd inKey (by decide)
  · rw [taken, left, chars]
    simp only
    rw [← chars, String.ofList_toList]

/-- A bare key is read up to the sign. -/
theorem keyPath?_bare (named : key ≠ "") (bare : ∀ char ∈ key.toList, isKeyChar char = true)
    (blanks : Blanks) (fuel : Nat) (rest : List Char) :
    keyPath? (fuel + 1) (key.toList ++ (blanks.chars ++ '=' :: rest)) =
      some ([key], '=' :: rest) := by
  have visible : ∀ char ∈ (key.toList ++ (blanks.chars ++ '=' :: rest)).head?,
      isBlank char = false := by
    obtain ⟨first, others, chars, inKey⟩ := exists_key named bare
    rw [chars]
    rintro _ ⟨⟩
    exact isBlank_of_isKeyChar inKey
  have stops : ∀ char ∈ (blanks.chars ++ '=' :: rest).head?, isKeyChar char = false := by
    cases chars : blanks.chars with
    | nil =>
        rintro _ ⟨⟩
        decide
    | cons first others =>
        rintro _ ⟨⟩
        rcases blank_cases (blanks.blank first (by simp [chars])) with rfl | rfl <;> decide
  have sign : dropBlanks ('=' :: rest) = '=' :: rest := dropBlanks_eq (by simp [isBlank])
  rw [keyPath?, dropBlanks_eq visible, key?_bare named bare stops]
  simp [sign]

section Opening

variable {first : Char} (inKey : isKeyChar first = true)
include inKey

theorem dropComment_key : dropComment (first :: rest) = first :: rest :=
  dropComment_of_ne (by rintro rfl; exact absurd inKey (by decide))

theorem newline?_key : newline? (first :: rest) = none := by
  refine newline?_eq_none ?_
  rintro _ ⟨⟩
  constructor <;> (rintro rfl; exact absurd inKey (by decide))

/-- A line does not end where a key starts. -/
theorem lineEnd?_key : lineEnd? (first :: rest) = none := by
  have visible : dropBlanks (first :: rest) = first :: rest :=
    dropBlanks_eq (by rintro _ ⟨⟩; exact isBlank_of_isKeyChar inKey)
  rw [lineEnd?, visible, dropComment_key inKey]
  exact newline?_key inKey

end Opening

end Keys

section Strings

variable {mark : Mark} {name text rest : List Char} {char : Char}

/-- Any other character than a mark leaves the string open. -/
theorem close?_of_ne {several : Bool} (other : char ≠ mark.char) :
    Enclosure.close? ⟨mark.char, several⟩ (char :: rest) = none := by
  cases several <;> simp [Enclosure.close?, other]

theorem close?_fence {several : Bool} (closed : several = true → rest.head? ≠ some mark.char) :
    Enclosure.close? ⟨mark.char, several⟩ (mark.fence several ++ rest) = some ([], rest) := by
  cases several with
  | false => simp [Enclosure.close?, Mark.fence]
  | true =>
      have run : (mark.fence true ++ rest).takeWhile (· = mark.char) = mark.fence true := by
        refine (takeWhile_word (by simp [Mark.fence]) fun char first => ?_).1
        rw [decide_eq_false_iff_not]
        rintro rfl
        exact closed rfl first
      simp only [Enclosure.close?, run]
      simp [Mark.fence]

/-- A string is closed, or a piece of it is read and then the others. -/
theorem body?_cases {enclosure : Enclosure} {body : List Char} {fuel : Nat}
    (read : enclosure.body? (fuel + 1) text = some (body, rest)) :
    enclosure.close? text = some (body, rest) ∨ enclosure.close? text = none ∧
      ∃ piece between inner, enclosure.piece? text = some (piece, between) ∧
        enclosure.body? fuel between = some (inner, rest) ∧ body = piece ++ inner := by
  rw [Enclosure.body?] at read
  split at read
  · rename_i closing closed
    cases read
    exact .inl closed
  · rename_i opened
    obtain ⟨⟨piece, between⟩, readPiece, read⟩ := Option.bind_eq_some_iff.mp read
    obtain ⟨⟨inner, left⟩, readInner, whole⟩ := Option.bind_eq_some_iff.mp read
    cases whole
    exact .inr ⟨opened, piece, between, inner, readPiece, readInner, rfl⟩

/-- An escape does not end a line. -/
theorem newline?_escape {count : Nat} (known : escape? text = some (char, count)) :
    newline? (dropBlanks text) = none := by
  unfold escape? at known
  split at known
  all_goals first | rfl | cases known

theorem codePoint?_append {count : Nat} (whole : count = text.length) :
    codePoint? count (text ++ rest) = codePoint? count text := by
  rw [codePoint?, codePoint?, List.take_append_of_le_length (Nat.le_of_eq whole)]

/-- What follows an escape does not change it. -/
theorem escape?_append (known : escape? text = some (char, text.length)) :
    escape? (text ++ rest) = some (char, text.length) := by
  unfold escape? at known
  split at known
  case h_8 digits =>
      obtain ⟨found, code, whole⟩ := Option.map_eq_some_iff.mp known
      obtain ⟨rfl, lengths⟩ := Prod.mk.inj whole
      have counted : 4 = digits.length := Nat.succ.inj lengths
      rw [List.cons_append, escape?, codePoint?_append counted, code, ← lengths]
      rfl
  case h_9 digits =>
      obtain ⟨found, code, whole⟩ := Option.map_eq_some_iff.mp known
      obtain ⟨rfl, lengths⟩ := Prod.mk.inj whole
      have counted : 8 = digits.length := Nat.succ.inj lengths
      rw [List.cons_append, escape?, codePoint?_append counted, code, ← lengths]
      rfl
  all_goals first | exact known | cases known

/-- What is written for a name neither closes the string nor ends the line at once. -/
theorem spells_head (spells : mark.Spells name text) :
    ∀ char ∈ text.head?, char ≠ mark.char ∧ char ≠ '\n' ∧ char ≠ '\r' := by
  cases spells with
  | nil => simp
  | plain isPlain inside unescaped others =>
      rintro char ⟨⟩
      refine ⟨inside, ?_, ?_⟩
      · rintro rfl
        exact absurd isPlain (by decide)
      · rintro rfl
        exact absurd isPlain (by decide)
  | escape isDouble known others =>
      rintro char ⟨⟩
      rw [isDouble]
      decide

/-- A string is read as the name that is written. -/
theorem body?_spelled {several : Bool} {fuel : Nat} (spells : mark.Spells name text)
    (closed : several = true → rest.head? ≠ some mark.char) (enough : text.length < fuel) :
    Enclosure.body? ⟨mark.char, several⟩ fuel (text ++ (mark.fence several ++ rest)) =
      some (name, rest) := by
  -- an escape takes several characters for one step of the reader, so the fuel is not used up
  induction spells generalizing fuel with
  | nil =>
      obtain ⟨fuel, rfl⟩ := Nat.exists_eq_succ_of_ne_zero (Nat.ne_of_gt enough)
      rw [List.nil_append, Enclosure.body?, close?_fence closed]
  | @plain char name text isPlain inside unescaped others ih =>
      obtain ⟨fuel, rfl⟩ := Nat.exists_eq_succ_of_ne_zero (Nat.ne_zero_of_lt enough)
      have noEscape :
          (Enclosure.hasEscapes ⟨mark.char, several⟩ && decide (char = '\x5c')) = false := by
        cases mark with
        | single => rfl
        | double => simp [unescaped rfl]
      rw [List.cons_append, Enclosure.body?, close?_of_ne inside, Enclosure.piece?, noEscape,
        if_neg (by decide), if_pos isPlain]
      simp [ih (Nat.lt_of_succ_lt_succ enough)]
  | @escape char escape name text isDouble known others ih =>
      obtain ⟨fuel, rfl⟩ := Nat.exists_eq_succ_of_ne_zero (Nat.ne_zero_of_lt enough)
      have goesOn : escape? (escape ++ (text ++ (mark.fence several ++ rest))) =
          some (char, escape.length) := escape?_append known
      cases isDouble
      have shorter : text.length < fuel := by
        simp only [List.length_append, List.length_cons] at enough
        omega
      rw [List.append_assoc, List.cons_append, Enclosure.body?, close?_of_ne (by decide),
        Enclosure.piece?, if_pos (by rfl), newline?_escape goesOn, goesOn]
      simp [ih shorter]

/-- Without three marks in front, a string is on one line. -/
theorem string?_of_line (line : ¬ [mark.char, mark.char] <+: text) :
    string? mark.char text = lineString? mark.char text := by
  unfold string?
  split
  · rename_i second third rest
    rw [if_neg]
    simp only [Bool.and_eq_true, decide_eq_true_eq]
    rintro ⟨rfl, rfl⟩
    exact line ⟨rest, rfl⟩
  · rfl

/-- A name is read from what is written for it. -/
theorem string?_spelled {several : Bool} (spells : mark.Spells name text)
    (closed : several = true ∨ name = [] → rest.head? ≠ some mark.char) :
    string? mark.char ((mark.fence several).tail ++ (text ++ (mark.fence several ++ rest))) =
      some (String.ofList name, rest) := by
  have closes : several = true → rest.head? ≠ some mark.char := fun isSeveral =>
    closed (.inl isSeveral)
  cases several with
  | false =>
      change string? mark.char (text ++ (mark.fence false ++ rest)) = _
      rw [string?_of_line, lineString?,
        body?_spelled spells closes (by rw [List.length_append]; omega)]
      · rfl
      · rintro ⟨others, starts⟩
        cases text with
        | nil =>
            cases spells
            refine closed (.inr rfl) ?_
            cases starts
            rfl
        | cons first text =>
            exact (spells_head spells first rfl).1 (List.cons.inj starts).1.symm
  | true =>
      have starts : ∀ char ∈ (text ++ (mark.fence true ++ rest)).head?,
          char ≠ '\n' ∧ char ≠ '\r' := by
        cases text with
        | nil => cases mark <;> rintro _ ⟨⟩ <;> decide
        | cons first text => exact fun char head => (spells_head spells char head).2
      have goesOn := newline?_eq_none starts
      change string? mark.char (mark.char :: mark.char :: (text ++ (mark.fence true ++ rest))) = _
      rw [string?, if_pos (by simp)]
      simp only [goesOn, Option.getD_none]
      rw [body?_spelled spells closes (by rw [List.length_append]; omega)]
      rfl

theorem spells_plain (plain : ∀ char ∈ name, isPlain char = true) (inside : mark.char ∉ name)
    (unescaped : '\x5c' ∉ name) : mark.Spells name name := by
  induction name with
  | nil => exact .nil
  | cons char name ih =>
      simp only [List.mem_cons, not_or] at inside unescaped
      exact .plain (plain char (by simp)) (Ne.symm inside.1) (fun _ => Ne.symm unescaped.1)
        (ih (fun char member => plain char (List.mem_cons_of_mem _ member)) inside.2 unescaped.2)

end Strings

/-- The text is what is left of a line, its line feed and what comes after it. -/
def RestOfLine (after text : List Char) : Prop :=
  ∃ front, '\n' ∉ front ∧ text = front ++ '\n' :: after

namespace RestOfLine

variable {after text rest : List Char} {char : Char}

theorem of_cons (line : RestOfLine after (char :: rest)) (noFeed : char ≠ '\n') :
    RestOfLine after rest := by
  obtain ⟨front, oneLine, whole⟩ := line
  cases front with
  | nil => exact absurd (List.cons.inj whole).1 noFeed
  | cons first front =>
      cases whole
      exact ⟨front, fun feed => oneLine (List.mem_cons_of_mem _ feed), rfl⟩

theorem dropWhile {holds : Char → Bool} (line : RestOfLine after text)
    (stops : holds '\n' = false) : RestOfLine after (text.dropWhile holds) := by
  induction text with
  | nil => exact line
  | cons first text ih =>
      rw [List.dropWhile_cons]
      split
      · rename_i goesOn
        refine ih (line.of_cons ?_)
        rintro rfl
        rw [stops] at goesOn
        cases goesOn
      · exact line

theorem drop {count : Nat} (line : RestOfLine after text) (short : count ≤ text.length)
    (oneLine : '\n' ∉ text.take count) : RestOfLine after (text.drop count) := by
  induction count generalizing text with
  | zero => exact line
  | succ count ih =>
      cases text with
      | nil => cases short
      | cons first text =>
          rw [List.take_succ_cons, List.mem_cons, not_or] at oneLine
          exact ih (line.of_cons (Ne.symm oneLine.1)) (Nat.le_of_succ_le_succ short) oneLine.2

theorem eq_of_newline? (line : RestOfLine after text) (ended : newline? text = some rest) :
    rest = after := by
  obtain ⟨front, oneLine, rfl⟩ := line
  cases front with
  | nil => exact (Option.some.inj ended).symm
  | cons first front =>
      unfold newline? at ended
      split at ended
      · rename_i starts
        cases starts
        exact absurd (List.mem_cons_self) oneLine
      · rename_i starts
        cases front with
        | nil =>
            cases starts
            exact (Option.some.inj ended).symm
        | cons second front =>
            cases starts
            simp at oneLine
      · cases ended

theorem dropComment (line : RestOfLine after text) : RestOfLine after (dropComment text) := by
  unfold Text.dropComment
  split
  · exact (line.of_cons (by decide)).dropWhile (by decide)
  · exact line

theorem eq_of_lineEnd? (line : RestOfLine after text) (ended : lineEnd? text = some rest) :
    rest = after := by
  have left : RestOfLine after (Text.dropComment (dropBlanks text)) :=
    (line.dropWhile (by decide)).dropComment
  rw [lineEnd?] at ended
  split at ended
  · rename_i empty
    rw [empty] at left
    obtain ⟨front, -, whole⟩ := left
    cases front <;> cases whole
  · exact left.eq_of_newline? ended

end RestOfLine

/-- All items of a list that is read as a whole are read. -/
theorem isSome_of_mapM {A B : Type} {read? : A → Option B} {items : List A} {found : List B}
    (read : items.mapM read? = some found) :
    found.length = items.length ∧ ∀ item ∈ items, (read? item).isSome = true := by
  induction items generalizing found with
  | nil =>
      rw [List.mapM_nil] at read
      cases read
      simp
  | cons item items ih =>
      rw [List.mapM_cons] at read
      obtain ⟨first, readFirst, read⟩ := Option.bind_eq_some_iff.mp read
      obtain ⟨others, readOthers, whole⟩ := Option.bind_eq_some_iff.mp read
      cases whole
      obtain ⟨lengths, all⟩ := ih readOthers
      exact ⟨congrArg (· + 1) lengths, by simpa [readFirst] using all⟩

section Escapes

variable {text : List Char} {char : Char} {count : Nat}

theorem codePoint?_line (read : codePoint? count text = some char) :
    count ≤ text.length ∧ '\n' ∉ text.take count := by
  rw [codePoint?] at read
  split at read
  · cases read
  · rename_i digits known
    obtain ⟨lengths, all⟩ := isSome_of_mapM known
    dsimp only at read
    split at read
    · rename_i enough
      rw [Bool.and_eq_true, decide_eq_true_eq] at enough
      refine ⟨?_, fun feed => absurd (all '\n' feed) (by decide)⟩
      rw [← enough.1, lengths, List.length_take]
      exact Nat.min_le_right _ _
    · cases read

/-- No escape takes the end of a line. -/
theorem escape?_line (read : escape? text = some (char, count)) :
    count ≤ text.length ∧ '\n' ∉ text.take count := by
  unfold escape? at read
  split at read
  case h_8 rest =>
      obtain ⟨found, known, whole⟩ := Option.map_eq_some_iff.mp read
      cases whole
      obtain ⟨enough, oneLine⟩ := codePoint?_line known
      exact ⟨Nat.succ_le_succ enough, by simpa using oneLine⟩
  case h_9 rest =>
      obtain ⟨found, known, whole⟩ := Option.map_eq_some_iff.mp read
      cases whole
      obtain ⟨enough, oneLine⟩ := codePoint?_line known
      exact ⟨Nat.succ_le_succ enough, by simpa using oneLine⟩
  all_goals cases read <;> simp

end Escapes

namespace RestOfLine

variable {after text rest : List Char} {mark : Mark} {several : Bool}

/-- The marks that close a string stand on one line. -/
theorem close? {closing : List Char} (line : RestOfLine after text)
    (closed : Enclosure.close? ⟨mark.char, several⟩ text = some (closing, rest)) :
    RestOfLine after rest := by
  have marks {count : Nat} (inRun : count ≤ (text.takeWhile (· = mark.char)).length) :
      RestOfLine after (text.drop count) := by
    have starts := List.takeWhile_prefix (l := text) (decide <| · = mark.char)
    refine line.drop (inRun.trans starts.length_le) fun feed => ?_
    have isMark : '\n' ∈ text.takeWhile (· = mark.char) := by
      rw [List.prefix_iff_eq_take.mp starts]
      exact List.take_subset_take_left _ inRun feed
    have same : '\n' = mark.char := by simpa using List.mem_takeWhile_imp isMark
    revert same
    cases mark <;> decide
  rw [Enclosure.close?] at closed
  cases several with
  | false =>
      simp only [Bool.false_eq_true, if_false] at closed
      split at closed
      · cases closed
      · cases closed
        exact marks (by omega)
  | true =>
      simp only [if_true] at closed
      split at closed
      · cases closed
      · cases closed
        exact marks (by omega)

/-- The next piece of a string is on the line, or takes its end if the string may have several. -/
theorem piece? {piece : List Char} (line : RestOfLine after text)
    (read : Enclosure.piece? ⟨mark.char, several⟩ text = some (piece, rest)) :
    RestOfLine after rest ∨ several = true ∧ ∃ fuel, rest = dropGaps false fuel after := by
  cases text with
  | nil => cases read
  | cons char text =>
      rw [Enclosure.piece?] at read
      split at read
      · rename_i escapes
        simp only [Bool.and_eq_true, decide_eq_true_eq] at escapes
        have left : RestOfLine after text := line.of_cons (by rw [escapes.2]; decide)
        split at read
        · rename_i next ended
          split at read
          · rename_i isSeveral
            cases read
            rw [(left.dropWhile (by decide)).eq_of_newline? ended]
            exact .inr ⟨isSeveral, after.length, rfl⟩
          · cases read
        · obtain ⟨⟨found, count⟩, known, whole⟩ := Option.map_eq_some_iff.mp read
          cases whole
          obtain ⟨enough, oneLine⟩ := escape?_line known
          exact .inl (left.drop enough oneLine)
      · split at read
        · rename_i plain
          cases read
          refine .inl (line.of_cons ?_)
          rintro rfl
          exact absurd plain (by decide)
        · split at read
          · rename_i isSeveral
            obtain ⟨next, ended, whole⟩ := Option.map_eq_some_iff.mp read
            cases whole
            exact .inr ⟨isSeveral, 0, line.eq_of_newline? ended⟩
          · cases read

/-- A string between single marks ends on its line. -/
theorem body? {body : List Char} {fuel : Nat} (line : RestOfLine after text)
    (read : Enclosure.body? ⟨mark.char, false⟩ fuel text = some (body, rest)) :
    RestOfLine after rest := by
  induction fuel generalizing text body with
  | zero => cases read
  | succ fuel ih =>
      rcases body?_cases read with closed | ⟨-, piece, between, inner, readPiece, readInner, -⟩
      · exact line.close? closed
      · rcases line.piece? readPiece with goesOn | ⟨⟨⟩, -⟩
        exact ih goesOn readInner

theorem lineString {body : String} (mark : Mark) (line : RestOfLine after text)
    (read : lineString? mark.char text = some (body, rest)) : RestOfLine after rest := by
  obtain ⟨⟨chars, left⟩, known, whole⟩ := Option.map_eq_some_iff.mp read
  cases whole
  exact line.body? known

end RestOfLine

end Text

namespace Line

open Text

theorem dropComment_tail (line : Line) {rest : List Char}
    (stops : ∀ char ∈ rest.head?, isPlain char = false ∧ isBlank char = false ∧ char ≠ '#') :
    dropComment (dropBlanks (line.tail ++ rest)) = rest := by
  rw [tail, List.append_assoc, dropBlanks_append]
  cases line.remark with
  | none =>
      rw [Option.elim_none, List.nil_append,
        dropBlanks_eq fun char first => (stops char first).2.1]
      cases rest with
      | nil => rfl
      | cons char rest => exact dropComment_of_ne (stops char rfl).2.2
  | some remark =>
      rw [Option.elim_some, List.cons_append,
        dropBlanks_eq (by simp [isBlank]), ← List.cons_append]
      exact dropComment_remark remark fun char first => (stops char first).1

theorem lineEnd?_tail (line : Line) (rest : List Char) :
    lineEnd? (line.tail ++ (line.ending.chars ++ rest)) = some rest := by
  rw [lineEnd?, line.dropComment_tail (by cases line.ending <;> rintro _ ⟨⟩ <;> decide)]
  cases line.ending <;> rfl

theorem lineEnd?_tail_end (line : Line) : lineEnd? line.tail = some [] := by
  have ended : dropComment (dropBlanks (line.tail ++ [])) = [] := line.dropComment_tail (by simp)
  rw [List.append_nil] at ended
  rw [lineEnd?, ended]

end Line

end RouteSearch.Settings
