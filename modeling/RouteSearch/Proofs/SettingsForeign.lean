/-
This file proves that a text which starts with a foreign value is read as no value that the setting
takes, whatever follows.
-/

import RouteSearch.Proofs.SettingsDocument
import Mathlib.Data.List.DropRight

namespace RouteSearch

open Settings
open Settings.Text

namespace Settings

namespace Entries

variable {entries later : Entries} {path : List String} {new : Value}

/-- Something is held that is no list or table without content. -/
def Loaded (entries : Entries) : Prop := ∃ entry ∈ entries, ¬ entry.2.IsEmpty

theorem Loaded.append (loaded : entries.Loaded) (more : Entries) : (entries ++ more).Loaded := by
  obtain ⟨entry, held, filled⟩ := loaded
  exact ⟨entry, List.mem_append_left _ held, filled⟩

theorem loaded_append {key : String} (filled : ¬ new.IsEmpty) :
    (entries ++ [(key, new)]).Loaded :=
  ⟨(key, new), by simp, filled⟩

theorem loaded_replace {key : String} {old : Value} (found : entries.find? key = some old)
    (filled : ¬ new.IsEmpty) : (entries.replace key new).Loaded := by
  refine ⟨(key, new), ?_, filled⟩
  exact List.mem_map.mpr ⟨(key, old), mem_of_find? found, if_pos rfl⟩

theorem keys_replace {key : String} :
    (entries.replace key new).map Prod.fst = entries.map Prod.fst := by
  rw [replace, List.map_map]
  refine List.map_congr_left fun entry _ => ?_
  by_cases here : entry.1 = key <;> simp [here]

namespace Assigned

/-- Keys stay, and the first key of the path is one of them. -/
theorem keys (assigned : Assigned new path entries later) :
    (∀ key ∈ entries.map Prod.fst, key ∈ later.map Prod.fst) ∧
      ∀ key ∈ path.head?, key ∈ later.map Prod.fst := by
  cases assigned with
  | last fresh => simp +contextual
  | opened fresh made => simp +contextual
  | within found made =>
      rw [keys_replace]
      refine ⟨fun _ => id, ?_⟩
      rintro _ ⟨⟩
      exact List.mem_map_of_mem (mem_of_find? found)

theorem ne_nil (assigned : Assigned new path entries later) : later ≠ [] := by
  obtain ⟨name, others, rfl⟩ : ∃ name others, path = name :: others := by
    cases assigned <;> exact ⟨_, _, rfl⟩
  have member := assigned.keys.2 name rfl
  rintro rfl
  cases member

/-- A table on the way to a new value is not empty, whatever the value is. -/
theorem loaded (assigned : Assigned new path entries later)
    (filled : entries.Loaded ∨ ¬ new.IsEmpty ∨ 1 < path.length) : later.Loaded := by
  cases assigned with
  | last fresh =>
      rcases filled with loaded | filled | dotted
      · exact loaded.append _
      · exact loaded_append filled
      · exact absurd dotted (by simp)
  | opened fresh made => exact loaded_append made.ne_nil
  | within found made => exact loaded_replace found made.ne_nil

end Assigned

end Entries

namespace Text

theorem exists_blanks (text : List Char) :
    ∃ blanks : Blanks, text = blanks.chars ++ dropBlanks text :=
  ⟨⟨text.takeWhile isBlank, fun _ => List.mem_takeWhile_imp⟩,
    (List.takeWhile_append_dropWhile).symm⟩

/-- A key that is read is in quotes, or stands there as it is. -/
theorem key?_opens {text left : List Char} {key : String} (read : key? text = some (key, left)) :
    (∃ (mark : Mark) (others : List Char), text = mark.char :: others) ∨
      text = key.toList ++ left := by
  unfold key? at read
  split at read
  · exact .inl ⟨.double, _, rfl⟩
  · exact .inl ⟨.single, _, rfl⟩
  · split at read
    · cases read
    · cases read
      rw [String.toList_ofList, List.takeWhile_append_dropWhile]
      exact .inr rfl

/-- A path has a first key, behind which it ends if it has no more. -/
theorem keyPath?_cons {fuel : Nat} {text rest : List Char} {path : List String}
    (read : keyPath? fuel text = some (path, rest)) :
    ∃ key left more, key? (dropBlanks text) = some (key, left) ∧ path = key :: more ∧
      (more = [] → rest = dropBlanks left) := by
  induction fuel generalizing text path with
  | zero => cases read
  | succ fuel ih =>
      obtain ⟨⟨key, left⟩, readKey, read⟩ := Option.bind_eq_some_iff.mp read
      refine ⟨key, left, path.tail, readKey, ?_⟩
      dsimp only at read
      split at read
      · obtain ⟨⟨keys, last⟩, others, whole⟩ := Option.bind_eq_some_iff.mp read
        cases whole
        obtain ⟨second, -, more, -, several, -⟩ := ih others
        rw [several]
        exact ⟨rfl, fun single => by cases single⟩
      · cases read
        exact ⟨rfl, fun _ => rfl⟩

end Text

namespace Value

variable {text left : List Char} {value : Value} {fuel : Nat}

/-- One entry of a table in braces is read, and then the table ends or its other entries follow. -/
theorem readEntries?_cases {known entries : Entries}
    (read : Value.readEntries? (fuel + 1) known text = some (entries, left)) :
    ∃ path others new behind later,
      keyPath? (text.length + 1) text = some (path, '=' :: others) ∧
      Value.read? fuel (dropBlanks others) = some (new, behind) ∧
      Entries.Assigned new path known later ∧
      (dropBlanks behind = '\x7d' :: left ∧ entries = later ∨
        ∃ next, dropBlanks behind = ',' :: next ∧
          Value.readEntries? fuel later next = some (entries, left)) := by
  rw [Value.readEntries?] at read
  obtain ⟨⟨path, rest⟩, readPath, read⟩ := Option.bind_eq_some_iff.mp read
  dsimp only at read
  split at read
  · rename_i others
    obtain ⟨⟨new, behind⟩, readValue, read⟩ := Option.bind_eq_some_iff.mp read
    obtain ⟨later, assigned, read⟩ := Option.bind_eq_some_iff.mp read
    dsimp only at read
    refine ⟨path, others, new, behind, later, readPath, readValue,
      Entries.assigned_of_assign? assigned, ?_⟩
    split at read
    · rename_i closed
      cases read
      exact .inl ⟨closed, rfl⟩
    · rename_i more
      exact .inr ⟨_, more, read⟩
    · cases read
  · cases read

/-- The entries that a table in braces has so far stay in it. -/
theorem readEntries?_keeps {known entries : Entries}
    (read : Value.readEntries? fuel known text = some (entries, left)) :
    (known.Loaded → entries.Loaded) ∧
      ∀ key ∈ known.map Prod.fst, key ∈ entries.map Prod.fst := by
  induction fuel generalizing known text with
  | zero => cases read
  | succ fuel ih =>
      obtain ⟨path, others, new, behind, later, -, -, assigned, ends⟩ := readEntries?_cases read
      have loaded (held : known.Loaded) : later.Loaded := assigned.loaded (.inl held)
      rcases ends with ⟨-, rfl⟩ | ⟨next, -, more⟩
      · exact ⟨loaded, assigned.keys.1⟩
      · obtain ⟨goesOn, keys⟩ := ih more
        exact ⟨fun held => goesOn (loaded held),
          fun key held => keys key (assigned.keys.1 key held)⟩

theorem opens_of_isEmpty (read : Value.read? fuel text = some (value, left))
    (empty : value.IsEmpty) :
    ∃ char others, text = char :: others ∧ (char = '[' ∨ char = '\x7b') := by
  rcases read?_cases read with ⟨mark, rest, body, -, -, rfl⟩ | ⟨rest, opens, -⟩ |
    ⟨rest, entries, opens, -⟩ | ⟨word, -⟩
  · exact absurd empty id
  · exact ⟨'[', rest, opens, .inl rfl⟩
  · exact ⟨'\x7b', rest, opens, .inr rfl⟩
  · rcases ofWord?_cases word with ⟨truth, rfl, -⟩ | ⟨number, rfl, -⟩
    · exact absurd empty id
    · exact absurd empty id

/-- A table with one entry, whose value is empty, opens with the key of this entry. -/
theorem readEntries?_single {name : String}
    (read : Value.readEntries? fuel [] text = some ([(name, value)], left))
    (empty : value.IsEmpty) :
    (∃ (mark : Mark) (others : List Char), dropBlanks text = mark.char :: others) ∨
      ∃ (before after : Blanks) (char : Char) (others : List Char),
        dropBlanks text =
          name.toList ++ (before.chars ++ '=' :: (after.chars ++ char :: others)) ∧
        (char = '[' ∨ char = '\x7b') := by
  cases fuel with
  | zero => cases read
  | succ fuel =>
      obtain ⟨path, others, new, rest, later, readPath, readValue, assigned, ends⟩ :=
        readEntries?_cases read
      have keeps : (later.Loaded → Entries.Loaded [(name, value)]) ∧
          ∀ key ∈ later.map Prod.fst, key ∈ [(name, value)].map Prod.fst := by
        rcases ends with ⟨-, rfl⟩ | ⟨next, -, more⟩
        · exact ⟨id, fun _ => id⟩
        · exact readEntries?_keeps more
      -- a value with content, or a table made for a dotted key, would be in the table to the end
      have notLoaded : ¬ later.Loaded := by
        intro loaded
        obtain ⟨entry, held, filled⟩ := keeps.1 loaded
        rw [List.mem_singleton.mp held] at filled
        exact filled empty
      have newEmpty : new.IsEmpty := by
        by_contra filled
        exact notLoaded (assigned.loaded (.inr (.inl filled)))
      obtain ⟨key, left, more, readKey, rfl, ends⟩ := keyPath?_cons readPath
      have single : more = [] := by
        by_contra dotted
        refine notLoaded (assigned.loaded (.inr (.inr ?_)))
        simpa using List.length_pos_of_ne_nil dotted
      have same : key = name := by
        simpa using keeps.2 key (assigned.keys.2 key rfl)
      obtain ⟨before, sign⟩ := exists_blanks left
      obtain ⟨after, behind⟩ := exists_blanks others
      obtain ⟨char, inner, opens, isOpening⟩ := opens_of_isEmpty readValue newEmpty
      rw [opens] at behind
      rw [← ends single, behind] at sign
      refine (key?_opens readKey).imp_right fun starts => ?_
      rw [same, sign] at starts
      exact ⟨before, after, char, inner, starts, isOpening⟩

theorem name_of_ofName? {kind : StateKind} {name : String}
    (known : StateKind.ofName? name = some kind) : kind.name = name := by
  unfold StateKind.ofName? at known
  split at known
  · cases known
    rfl
  · cases known
    rfl
  · cases known

theorem read?_brace (rest : List Char) (fuel : Nat) :
    Value.read? (fuel + 1) ('\x7b' :: rest) =
      match dropBlanks rest with
      | '\x7d' :: rest => some (.table .inline [], rest)
      | rest => (Value.readEntries? fuel [] rest).map fun (entries, rest) =>
          (.table .inline entries, rest) := by
  unfold Value.read?
  rfl

/-- A table that a setting takes opens with the name of a kind of states. -/
theorem namesKind_of_takes {rest : List Char}
    (read : Value.read? fuel ('\x7b' :: rest) = some (value, left))
    (takes : Setting.Kind.Takes .name value) : NamesKind rest := by
  obtain ⟨indent, blanks⟩ := exists_blanks rest
  cases fuel with
  | zero => cases read
  | succ fuel =>
      rw [read?_brace] at read
      split at read
      · cases read
        cases takes
      · obtain ⟨⟨entries, behind⟩, readEntries, whole⟩ := Option.map_eq_some_iff.mp read
        cases whole
        cases takes with
        | @table origin name value known empty =>
            obtain ⟨kind, known⟩ := Option.ne_none_iff_exists'.mp known
            have single := readEntries?_single readEntries empty
            rw [dropBlanks, dropBlanks, List.dropWhile_idempotent, ← dropBlanks] at single
            rcases single with ⟨mark, others, opens⟩ |
              ⟨before, after, char, others, opens, isOpening⟩
            · rw [blanks, opens]
              exact .quoted indent mark others
            · rw [blanks, opens, ← name_of_ofName? known]
              exact .bare indent before after kind others isOpening

theorem eq_of_takeWhile {holds : Char → Bool} {char first : Char} {rest others : List Char}
    (word : (char :: rest).takeWhile holds = first :: others) : first = char := by
  rw [List.takeWhile_cons] at word
  split at word
  · exact (List.cons.inj word).1.symm
  · cases word

/-- A value that a setting takes opens with a character of its kind. -/
theorem opensWith_of_takes {kind : Setting.Kind} {char : Char} {rest : List Char}
    (read : Value.read? fuel (char :: rest) = some (value, left)) (takes : kind.Takes value) :
    kind.opensWith char = true := by
  rcases read?_cases read with ⟨mark, rest, body, opens, -, rfl⟩ | ⟨rest, -, rfl⟩ |
    ⟨rest, entries, opens, rfl⟩ | ⟨word, -⟩
  · cases takes
    cases opens
    cases mark <;> rfl
  · cases takes
  · cases takes
    cases opens
    rfl
  · rcases ofWord?_cases word with ⟨truth, rfl, isTruth⟩ | ⟨number, rfl, isInteger⟩
    · cases takes
      cases truth with
      | false =>
          rw [← eq_of_takeWhile isTruth]
          rfl
      | true =>
          rw [← eq_of_takeWhile isTruth]
          rfl
    · cases takes
      obtain ⟨first, others, starts, opens⟩ :=
        unboundedInteger?_opens (unbounded_of_integer isInteger)
      rw [← eq_of_takeWhile starts]
      rcases opens with isDigit | ⟨rfl, -⟩ | ⟨rfl, -⟩
      · simp [Setting.Kind.opensWith, isDigit]
      · rfl
      · rfl

/-- An integer is read from a word. -/
theorem integer?_of_read? {number : Int}
    (read : Value.read? fuel text = some (.integer number, left)) :
    integer? (text.takeWhile isWordChar) = some number := by
  rcases read?_cases read with ⟨mark, rest, body, -, -, ⟨⟩⟩ | ⟨rest, -, ⟨⟩⟩ |
    ⟨rest, entries, -, ⟨⟩⟩ | ⟨word, -⟩
  rcases ofWord?_cases word with ⟨truth, ⟨⟩, -⟩ | ⟨number, ⟨⟩, isInteger⟩
  exact isInteger

theorem isWordChar_of_digit {char : Char} (digit : char.isDigit = true ∨ char = '_') :
    isWordChar char = true := by
  rcases digit with isDigit | rfl
  · simp [isWordChar, isKeyChar, Char.isAlphanum, isDigit]
  · rfl

end Value

/-- No character of the text ends a line. -/
def Text.WithinLine (text : List Char) : Prop := '\n' ∉ text ∧ '\r' ∉ text

theorem Text.withinLine_blanks (blanks : Blanks) : WithinLine blanks.chars := by
  constructor <;> (intro member; exact absurd (blanks.blank _ member) (by decide))

theorem Text.WithinLine.append {first second : List Char} (one : WithinLine first)
    (other : WithinLine second) : WithinLine (first ++ second) := by
  simp only [WithinLine, List.mem_append, not_or]
  exact ⟨⟨one.1, other.1⟩, one.2, other.2⟩

/-- What stands before the end of a line does not depend on what follows. -/
theorem Text.WithinLine.isPrefix {front tail rest more : List Char} (oneLine : WithinLine front)
    (ended : ∀ char ∈ more.head?, char = '\n' ∨ char = '\r')
    (whole : front ++ tail = rest ++ more) : ∃ behind, rest = front ++ behind := by
  rcases List.append_eq_append_iff.mp whole with ⟨between, longer, -⟩ | ⟨between, longer, behind⟩
  · exact ⟨between, longer⟩
  · cases between with
    | nil => exact ⟨[], by rw [longer, List.append_nil, List.append_nil]⟩
    | cons first between =>
        rcases ended first (by simp [behind]) with rfl | rfl
        · exact absurd (by simp [longer]) oneLine.1
        · exact absurd (by simp [longer]) oneLine.2

/-- A table that names a kind of states does so before its line ends. -/
theorem namesKind_of_append {rest more : List Char}
    (ended : ∀ char ∈ more.head?, char = '\n' ∨ char = '\r') (names : NamesKind (rest ++ more)) :
    NamesKind rest := by
  generalize text : rest ++ more = whole at names
  cases names with
  | @bare indent before after kind char tail opens =>
      have name : WithinLine kind.name.toList := by cases kind <;> exact ⟨by decide, by decide⟩
      have sign : WithinLine ['='] := ⟨by decide, by decide⟩
      have opening : WithinLine [char] := by
        rcases opens with rfl | rfl <;> exact ⟨by decide, by decide⟩
      have front := (withinLine_blanks indent).append (name.append
        ((withinLine_blanks before).append
          (sign.append ((withinLine_blanks after).append opening))))
      obtain ⟨behind, rfl⟩ := front.isPrefix ended
        (by simp [text] : _ ++ tail = rest ++ more)
      simpa using NamesKind.bare indent before after kind behind opens
  | quoted indent mark tail =>
      have sign : WithinLine [mark.char] := by cases mark <;> exact ⟨by decide, by decide⟩
      obtain ⟨behind, rfl⟩ := ((withinLine_blanks indent).append sign).isPrefix ended
        (by simp [text] : _ ++ tail = rest ++ more)
      simpa using NamesKind.quoted indent mark behind

end Settings

/-- The end of a line behind a foreign value leaves it foreign. -/
theorem Setting.Foreign.append {kind : Setting.Kind} {text : List Char}
    (foreign : Setting.Foreign kind text) {more : List Char}
    (ended : ∀ char ∈ more.head?, char = '\n' ∨ char = '\r') :
    Setting.Foreign kind (text ++ more) := by
  cases foreign with
  | opening rest visible differs => exact .opening (rest ++ more) visible differs
  | negative rest isDigit positive => exact .negative (rest ++ more) isDigit positive
  | signed rest isSign noDigit => exact .signed (rest ++ more) isSign noDigit
  | broken rest isSign nonempty areDigits breaks =>
      rw [List.append_assoc, List.cons_append]
      exact .broken (rest ++ more) isSign nonempty areDigits breaks
  | unknownName mark several rest spells closed unknown =>
      rw [List.append_assoc, List.append_assoc, List.append_assoc]
      refine .unknownName mark several (rest ++ more) spells (fun opens => ?_) unknown
      cases rest with
      | nil =>
          intro isMark
          rcases ended _ isMark with feed | ret
          · cases mark <;> cases feed
          · cases mark <;> cases ret
      | cons first rest => exact closed opens
  | table rest differs => exact .table (rest ++ more) (mt (namesKind_of_append ended) differs)

namespace Settings.Value

/-- A text that starts with a foreign value is read as no value that the setting takes. -/
theorem not_takes_of_foreign {kind : Setting.Kind} {fuel : Nat}
    {text left : List Char} {value : Value} (foreign : Setting.Foreign kind text)
    (read : Value.read? fuel text = some (value, left)) : ¬ kind.Takes value := by
  intro takes
  cases foreign with
  | opening rest visible differs =>
      rw [opensWith_of_takes read takes] at differs
      cases differs
  | negative rest isDigit positive =>
      cases takes with
      | count number =>
          have integer := integer?_of_read? read
          rw [List.takeWhile_cons_of_pos rfl,
            List.takeWhile_cons_of_pos (isWordChar_of_digit (.inl isDigit))] at integer
          have below := integer?_negative positive integer
          omega
  | signed rest isSign noDigit =>
      cases takes with
      | count number =>
          have integer := integer?_of_read? read
          rw [List.takeWhile_cons_of_pos (by rcases isSign with rfl | rfl <;> rfl),
            integer?_signed isSign] at integer
          · cases integer
          · intro char first
            obtain ⟨others, starts⟩ := List.head?_eq_some_iff.mp first
            rw [eq_of_takeWhile starts]
            exact noDigit
  | @broken sign digits char rest isSign nonempty areDigits breaks =>
      cases takes with
      | count number =>
          have integer := integer?_of_read? read
          have wordChar : isWordChar char = true := by
            simp only [Setting.breaksInteger, Bool.or_eq_true, decide_eq_true_eq] at breaks
            rcases breaks with (((rfl | rfl) | rfl) | rfl) | rfl <;> rfl
          have inside : ∀ char ∈ sign ++ digits, isWordChar char = true := by
            intro char member
            rcases List.mem_append.mp member with inSign | inDigits
            · rcases isSign with rfl | rfl | rfl <;> simp at inSign <;> subst inSign <;> rfl
            · exact isWordChar_of_digit (areDigits char inDigits)
          rw [List.takeWhile_append_of_pos inside, List.takeWhile_cons_of_pos wordChar,
            integer?_broken isSign nonempty areDigits breaks] at integer
          cases integer
  | unknownName mark several rest spells closed unknown =>
      cases fuel with
      | zero => cases read
      | succ fuel =>
          rw [read?_spelled spells closed] at read
          cases read
          cases takes with
          | name known => exact known unknown
  | table rest differs => exact differs (namesKind_of_takes read takes)

end Settings.Value

end RouteSearch
