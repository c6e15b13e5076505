/-
This file proves which values the settings take, and how these values are read.
-/

import RouteSearch.Settings.Reader
import RouteSearch.Proofs.SettingsNumbers
import RouteSearch.Proofs.SettingsText

namespace RouteSearch

open Settings (Mark Value)
open Settings.Text

/-- A list or a table without content. -/
def Settings.Value.IsEmpty : Value → Prop
  | .emptyList => True
  | .table _ entries => entries = []
  | _ => False

namespace Setting

/-- The value of a setting in the tree of a text. -/
def value : Setting → Value
  | .stateKind kind => .string kind.name
  | .maxVisited count => .integer count
  | .timeoutMs milliseconds => .integer milliseconds
  | .initialCapacity capacity => .integer capacity
  | .tracksMeeting tracks => .boolean tracks

/-- A setting as an entry of a table. -/
def entry (setting : Setting) : String × Value := (setting.name, setting.value)

/-- The values that settings of a kind can have. A table for a name holds the name alone. -/
inductive Kind.Takes : Kind → Value → Prop where
  | name {name : String} (known : StateKind.ofName? name ≠ none) : Takes .name (.string name)
  | table (origin : Settings.TableOrigin) {name : String} {value : Value}
      (known : StateKind.ofName? name ≠ none) (empty : value.IsEmpty) :
      Takes .name (.table origin [(name, value)])
  | count (number : Nat) : Takes .count (.integer number)
  | flag (tracks : Bool) : Takes .flag (.boolean tracks)

theorem ofEntry?_entry (setting : Setting) : ofEntry? setting.entry = some setting := by
  cases setting with
  | stateKind kind => cases kind <;> rfl
  | maxVisited count => simp [entry, name, value, ofEntry?, natural?]
  | timeoutMs milliseconds => simp [entry, name, value, ofEntry?, natural?]
  | initialCapacity capacity => simp [entry, name, value, ofEntry?, natural?]
  | tracksMeeting tracks => rfl

theorem takes_of_stateKind? {value : Value} {kind : StateKind}
    (read : stateKind? value = some kind) : Kind.Takes .name value := by
  have known {name : String} (read : StateKind.ofName? name = some kind) :
      StateKind.ofName? name ≠ none := by
    rw [read]
    exact Option.some_ne_none kind
  unfold stateKind? at read
  split at read
  · exact .name (known read)
  · exact .table _ (known read) trivial
  · exact .table _ (known read) rfl
  · cases read

theorem takes_of_natural? {value : Value} {number : Nat} (read : natural? value = some number) :
    Kind.Takes .count value := by
  unfold natural? at read
  split at read
  · split at read
    · rename_i found natural
      obtain ⟨number, rfl⟩ := Int.eq_ofNat_of_zero_le natural
      exact .count number
    · cases read
  · cases read

theorem takes_of_boolean? {value : Value} {tracks : Bool} (read : boolean? value = some tracks) :
    Kind.Takes .flag value := by
  unfold boolean? at read
  split at read
  · exact .flag _
  · cases read

/-- A value that a setting is taken from is one of its kind. -/
theorem takes_of_entry {setting found : Setting} {value : Value}
    (read : ofEntry? (setting.name, value) = some found) : setting.kind.Takes value := by
  cases setting with
  | stateKind kind =>
      obtain ⟨kind, known, -⟩ := Option.map_eq_some_iff.mp read
      exact takes_of_stateKind? known
  | maxVisited count =>
      obtain ⟨number, natural, -⟩ := Option.map_eq_some_iff.mp read
      exact takes_of_natural? natural
  | timeoutMs milliseconds =>
      obtain ⟨number, natural, -⟩ := Option.map_eq_some_iff.mp read
      exact takes_of_natural? natural
  | initialCapacity capacity =>
      obtain ⟨number, natural, -⟩ := Option.map_eq_some_iff.mp read
      exact takes_of_natural? natural
  | tracksMeeting tracks =>
      obtain ⟨tracks, truth, -⟩ := Option.map_eq_some_iff.mp read
      exact takes_of_boolean? truth

theorem ofEntry?_of_not_takes {setting : Setting} {key : String} {value : Value}
    (known : setting.name = key) (notTaken : ¬ setting.kind.Takes value) :
    ofEntry? (key, value) = none := by
  cases found : ofEntry? (key, value) with
  | none => rfl
  | some taken =>
      rw [← known] at found
      exact absurd (takes_of_entry found) notTaken

/-- A name that no setting has stands for no setting. -/
theorem ofEntry?_unknown {key : String} (unknown : ∀ setting : Setting, setting.name ≠ key)
    (value : Value) : ofEntry? (key, value) = none := by
  unfold ofEntry?
  dsimp only
  split
  · exact absurd rfl (unknown (.stateKind .nodeBased))
  · exact absurd rfl (unknown (.maxVisited 0))
  · exact absurd rfl (unknown (.timeoutMs 0))
  · exact absurd rfl (unknown (.initialCapacity 0))
  · exact absurd rfl (unknown (.tracksMeeting true))
  · rfl

end Setting

namespace Settings.Value

variable {text left : List Char} {value : Value} {fuel : Nat}

/-- The four ways to read a value, by the character it opens with. -/
theorem read?_cases (read : Value.read? fuel text = some (value, left)) :
    (∃ (mark : Mark) (rest : List Char) (body : String), text = mark.char :: rest ∧
      string? mark.char rest = some (body, left) ∧ value = .string body) ∨
    (∃ rest, text = '[' :: rest ∧ value = .emptyList) ∨
    (∃ rest entries, text = '\x7b' :: rest ∧ value = .table .inline entries) ∨
    (ofWord? (text.takeWhile isWordChar) = some value ∧ left = text.dropWhile isWordChar) := by
  cases fuel with
  | zero => cases read
  | succ fuel =>
      unfold Value.read? at read
      split at read
      · obtain ⟨⟨body, rest⟩, string, whole⟩ := Option.map_eq_some_iff.mp read
        cases whole
        exact .inl ⟨.double, _, body, rfl, string, rfl⟩
      · obtain ⟨⟨body, rest⟩, string, whole⟩ := Option.map_eq_some_iff.mp read
        cases whole
        exact .inl ⟨.single, _, body, rfl, string, rfl⟩
      · split at read
        · cases read
          exact .inr (.inl ⟨_, rfl, rfl⟩)
        · cases read
      · split at read
        · cases read
          exact .inr (.inr (.inl ⟨_, [], rfl, rfl⟩))
        · obtain ⟨⟨entries, rest⟩, -, whole⟩ := Option.map_eq_some_iff.mp read
          cases whole
          exact .inr (.inr (.inl ⟨_, entries, rfl, rfl⟩))
      · obtain ⟨found, word, whole⟩ := Option.map_eq_some_iff.mp read
        cases whole
        exact .inr (.inr (.inr ⟨word, rfl⟩))

theorem read?_string (mark : Mark) (rest : List Char) (fuel : Nat) :
    Value.read? (fuel + 1) (mark.char :: rest) =
      (string? mark.char rest).map fun (body, rest) => (.string body, rest) := by
  unfold Value.read?
  cases mark <;> rfl

/-- A name in quotes is read as that name. -/
theorem read?_spelled {mark : Mark} {several : Bool} {name text rest : List Char}
    (spells : mark.Spells name text)
    (closed : several = true ∨ name = [] → rest.head? ≠ some mark.char) (fuel : Nat) :
    Value.read? (fuel + 1) (mark.fence several ++ (text ++ (mark.fence several ++ rest))) =
      some (.string (String.ofList name), rest) := by
  have opens : mark.fence several = mark.char :: (mark.fence several).tail := by
    cases several <;> rfl
  have string := string?_spelled spells closed
  rw [opens, List.cons_append, read?_string, ← opens, string]
  rfl

/-- A word is a truth value or an integer. -/
theorem ofWord?_cases {word : List Char} (read : ofWord? word = some value) :
    (∃ truth : Bool, value = .boolean truth ∧
      word = (if truth then "true" else "false").toList) ∨
    ∃ number, value = .integer number ∧ integer? word = some number := by
  unfold ofWord? at read
  split at read
  · rename_i isTrue
    cases read
    exact .inl ⟨true, rfl, by rw [if_pos rfl, ← isTrue, String.toList_ofList]⟩
  · rename_i isFalse
    cases read
    exact .inl ⟨false, rfl, by rw [if_neg (by decide), ← isFalse, String.toList_ofList]⟩
  · obtain ⟨number, known, rfl⟩ := Option.map_eq_some_iff.mp read
    exact .inr ⟨number, rfl, known⟩

/-- Only a table written in braces is read as a value, and no later line adds to it. -/
def Complete : Value → Prop
  | .table origin _ => origin = .inline
  | _ => True

theorem complete_of_read? (read : Value.read? fuel text = some (value, left)) : value.Complete := by
  rcases read?_cases read with ⟨mark, rest, body, -, -, rfl⟩ | ⟨rest, -, rfl⟩ |
    ⟨rest, entries, -, rfl⟩ | ⟨word, -⟩
  · trivial
  · trivial
  · rfl
  · rcases ofWord?_cases word with ⟨truth, rfl, -⟩ | ⟨number, rfl, -⟩ <;> trivial

/-- A word is read up to a character that cannot stand in it. -/
theorem read?_word {word rest : List Char} (nonempty : word ≠ [])
    (inside : ∀ char ∈ word, isKeyChar char = true)
    (stops : ∀ char ∈ rest.head?, isWordChar char = false) (fuel : Nat) :
    Value.read? (fuel + 1) (word ++ rest) = (ofWord? word).map fun value => (value, rest) := by
  have inWord : ∀ char ∈ word, isWordChar char = true :=
    fun char member => by simp [isWordChar, inside char member]
  obtain ⟨taken, dropped⟩ := takeWhile_word inWord stops
  obtain ⟨first, others, rfl⟩ := List.exists_cons_of_ne_nil nonempty
  have isKeyChar := inside first (by simp)
  unfold Value.read?
  split
  · rename_i starts
    cases starts
    exact absurd isKeyChar (by decide)
  · rename_i starts
    cases starts
    exact absurd isKeyChar (by decide)
  · rename_i starts
    cases starts
    exact absurd isKeyChar (by decide)
  · rename_i starts
    cases starts
    exact absurd isKeyChar (by decide)
  · rw [taken, dropped]

theorem read?_number (number fuel : Nat) {rest : List Char}
    (stops : ∀ char ∈ rest.head?, isWordChar char = false) :
    Value.read? (fuel + 1) ((toString number).toList ++ rest) =
      if number < Nat.pow 2 63 then some (.integer number, rest) else none := by
  rw [Nat.toString_eq_ofList_toDigits, String.toList_ofList]
  have digits : ∀ char ∈ Nat.toDigits 10 number, char.isDigit = true :=
    fun char => Nat.isDigit_of_mem_toDigits (by decide) (by decide)
  have noTruth (truth : Bool) :
      String.ofList (Nat.toDigits 10 number) ≠ if truth then "true" else "false" := by
    intro same
    have starts := congrArg String.toList same
    rw [String.toList_ofList] at starts
    cases truth with
    | false => exact absurd (digits 'f' (by rw [starts]; decide)) (by decide)
    | true => exact absurd (digits 't' (by rw [starts]; decide)) (by decide)
  have word : ofWord? (Nat.toDigits 10 number) =
      (integer? (Nat.toDigits 10 number)).map Value.integer := by
    unfold ofWord?
    split
    · rename_i isTrue
      exact absurd isTrue (noTruth true)
    · rename_i isFalse
      exact absurd isFalse (noTruth false)
    · rfl
  rw [read?_word Nat.toDigits_ne_nil (fun char member => by
    simp [isKeyChar, Char.isAlphanum, digits char member]) stops, word, integer?_toDigits]
  split <;> rfl

/-- The value of a setting is read back. -/
theorem read?_valueChars (setting : Setting) (mark : Mark) (fuel : Nat) {rest : List Char}
    (stops : ∀ char ∈ rest.head?, isWordChar char = false) :
    Value.read? (fuel + 1) (setting.valueChars mark ++ rest) =
      if setting.Writable then some (setting.value, rest) else none := by
  cases setting with
  | stateKind kind =>
      have spells : mark.Spells kind.name.toList kind.name.toList := by
        cases kind <;> cases mark <;>
          exact spells_plain (List.all_eq_true.mp (by decide)) (by decide) (by decide)
      have string : Value.read? (fuel + 1)
          (mark.fence false ++ (kind.name.toList ++ (mark.fence false ++ rest))) =
            some (.string (String.ofList kind.name.toList), rest) :=
        read?_spelled spells (fun opens => absurd opens (by cases kind <;> decide)) fuel
      rw [String.ofList_toList] at string
      rw [if_pos (show Setting.Writable (.stateKind kind) from trivial), Setting.valueChars,
        List.append_assoc]
      exact string
  | maxVisited count => exact read?_number count fuel stops
  | timeoutMs milliseconds => exact read?_number milliseconds fuel stops
  | initialCapacity capacity => exact read?_number capacity fuel stops
  | tracksMeeting tracks =>
      rw [if_pos (show Setting.Writable (.tracksMeeting tracks) from trivial)]
      cases tracks with
      | false =>
          exact read?_word (by decide : "false".toList ≠ []) (List.all_eq_true.mp (by decide))
            stops fuel
      | true =>
          exact read?_word (by decide : "true".toList ≠ []) (List.all_eq_true.mp (by decide))
            stops fuel

end Settings.Value

/-- The statement that adds an entry to the outermost table. -/
def Settings.Statement.ofEntry (entry : String × Value) : Settings.Statement :=
  .assign [entry.1] entry.2

end RouteSearch
