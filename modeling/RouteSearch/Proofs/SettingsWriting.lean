/-
This file proves that written settings are read back, and that a line that does not belong to them
is refused wherever it stands.
-/

import RouteSearch.Proofs.SettingsDocument
import RouteSearch.Proofs.SettingsGiven
import RouteSearch.Proofs.SettingsOneLine

namespace RouteSearch.Settings

open Text

section Mark

variable {rest : List Char}

/-- A text without a byte order mark in front is read from its first character on. -/
theorem dropMark_eq {text : List Char}
    (unmarked : ∀ char ∈ text.head?, char ≠ Document.byteOrderMark) :
    Document.dropMark text = text := by
  cases text with
  | nil => rfl
  | cons first rest => exact if_neg (unmarked first rfl)

theorem unmarked_of_opensLine {char : Char} (opens : opensLine char = true) :
    char ≠ Document.byteOrderMark := by
  rintro rfl
  exact absurd opens (by decide)

theorem joinLines_unmarked {rows : List (List Char × LineEnd)}
    (opens : ∀ row ∈ rows, ∀ char ∈ row.1.head?, opensLine char = true) :
    ∀ char ∈ (joinLines rows).head?, char ≠ Document.byteOrderMark := by
  fun_cases joinLines rows with
  | case1 => simp
  | case2 chars ending =>
      exact fun char head => unmarked_of_opensLine (opens (chars, ending) (by simp) char head)
  | case3 chars ending next rows =>
      cases chars with
      | nil => cases ending <;> rintro _ ⟨⟩ <;> decide
      | cons first others =>
          rintro _ ⟨⟩
          exact unmarked_of_opensLine (opens (first :: others, ending) (by simp) first rfl)

end Mark

section Refusal

variable {text : String} {entries : Entries}

theorem mapM_entry (list : List Setting) :
    (list.map Setting.entry).mapM Setting.ofEntry? = some list := by
  induction list with
  | nil => rfl
  | cons setting list ih =>
      rw [List.map_cons, List.mapM_cons, Setting.ofEntry?_entry, ih]
      rfl

theorem ofText_refused (refused : ∀ entries, Document.read? text = some entries →
    ofEntries? entries = none) : ∃ detail, ofText text = .error (.unreadableConfig detail) := by
  have noSettings : (Document.read? text).bind ofEntries? = none := by
    cases read : Document.read? text with
    | none => rfl
    | some entries => exact refused entries read
  rw [ofText, noSettings]
  exact ⟨_, rfl⟩

/-- One entry that stands for no setting spoils all. -/
theorem ofEntries?_of_find? {key : String} {value : Value} (held : entries.find? key = some value)
    (noSetting : Setting.ofEntry? (key, value) = none) : ofEntries? entries = none := by
  cases read : entries.mapM Setting.ofEntry? with
  | none => rw [ofEntries?, read]; rfl
  | some found =>
      have isSome := (isSome_of_mapM read).2 (key, value) (Entries.mem_of_find? held)
      rw [noSetting] at isSome
      cases isSome

end Refusal

section Reading

variable {lines : List Line} {settings : Settings}

theorem read?_ofList {chars : List Char}
    (unmarked : ∀ char ∈ chars.head?, char ≠ Document.byteOrderMark) :
    Document.read? (String.ofList chars) =
      (Statement.readAll? (chars.length + 1) chars).bind fun statements =>
        (statements.foldlM Document.follow? ⟨[], []⟩).map Document.entries := by
  rw [Document.read?, String.toList_ofList, dropMark_eq unmarked]
  cases Statement.readAll? (chars.length + 1) chars with
  | none => rfl
  | some statements =>
      rw [Option.bind_some]
      change (statements.foldlM Document.follow? ⟨[], []⟩).bind _ = _
      cases statements.foldlM Document.follow? ⟨[], []⟩ <;> rfl

theorem map_fst_entry (list : List Setting) :
    (list.map Setting.entry).map Prod.fst = list.map Setting.name := by
  rw [List.map_map]
  rfl

/-- Written lines are read as the entries that they give. -/
theorem read?_write (writable : ∀ setting ∈ written lines, setting.Writable)
    (distinct : ((written lines).map Setting.name).Nodup) :
    Document.read? (write lines) = some ((written lines).map Setting.entry) := by
  have opens : ∀ row ∈ lines.map Line.row, ∀ char ∈ row.1.head?, opensLine char = true := by
    intro row member
    obtain ⟨line, -, rfl⟩ := List.mem_map.mp member
    exact line.opens
  rw [write, read?_ofList (joinLines_unmarked opens),
    readAll?_joinLines lines (Nat.lt_succ_self _), statements?, if_pos writable, Option.bind_some,
    Document.followAll_ofEntry (by simp), List.nil_append, map_fst_entry, if_pos distinct]
  rfl

theorem GivenBy.distinct (given : settings.GivenBy (written lines)) :
    ((written lines).map Setting.name).Nodup :=
  List.Nodup.map_on (fun setting held other also => eq_of_name (given.held setting held)
    (given.held other also)) given.once

/-- Lines that give settings are read back as these settings. -/
theorem ofText_write (writable : ∀ setting ∈ settings.toList, setting.Writable)
    (given : settings.GivenBy (written lines)) :
    ofText (write lines) = match settings.check with
      | .error error => .error error
      | .ok () => .ok settings := by
  have read : Document.read? (write lines) = some ((written lines).map Setting.entry) :=
    read?_write (fun setting member => writable setting (given.held setting member)) given.distinct
  have found : (Document.read? (write lines)).bind ofEntries? = some settings := by
    rw [read, Option.bind_some, ofEntries?, mapM_entry, Option.map_some, given.ofList_eq]
  cases checked : settings.check with
  | error error => simp only [ofText, found, checked]
  | ok => simp only [ofText, found, checked]

end Reading

section Stray

variable {before after : List Line} {stray : StrayLine} {entries : Entries} {value : Value}
  {rest : List Char} {others : List Statement}

/-- How a text is read in which a stray line stands among others: the value of that line, the text
behind it, and the statements of that text. -/
structure ReadsStray (before : List Line) (stray : StrayLine) (after : List Line)
    (entries : Entries) (value : Value) (rest : List Char) (others : List Statement) : Prop where
  follows : after = [] ∧ rest = [] ∨ rest = stray.ending.chars ++ joinLines (after.map Line.row)
  read : ∃ fuel left next, Value.read? fuel (stray.value ++ rest) = some (value, left) ∧
    lineEnd? left = some next ∧
    ∃ fuel, rest.length < fuel ∧ Statement.readAll? fuel next = some others
  distinct : (((written before).map Setting.entry ++ [(stray.key, value)]).map Prod.fst).Nodup
  followed : ∃ document, others.foldlM Document.follow?
    ⟨(written before).map Setting.entry ++ [(stray.key, value)], []⟩ = some document ∧
    document.entries = entries

theorem StrayLine.restOfLine (stray : StrayLine) (next : List Char) :
    RestOfLine next (stray.value ++ (stray.ending.chars ++ next)) := by
  cases stray.ending with
  | lineFeed => exact ⟨stray.value, stray.oneLine, rfl⟩
  | returnAndFeed =>
      refine ⟨stray.value ++ ['\r'], ?_, by simp [LineEnd.chars]⟩
      simpa using stray.oneLine

theorem joinLines_stray (stray : StrayLine) (after : List Line) :
    ∃ rest, joinLines (stray.row :: after.map Line.row) = stray.chars ++ rest ∧
      (after = [] ∧ rest = [] ∨ rest = stray.ending.chars ++ joinLines (after.map Line.row)) := by
  cases after with
  | nil => exact ⟨[], (List.append_nil _).symm, .inl ⟨rfl, rfl⟩⟩
  | cons line after => exact ⟨_, rfl, .inr rfl⟩

theorem unmarked_writeWith (before : List Line) (stray : StrayLine) (after : List Line) :
    ∀ char ∈ (joinLines (before.map Line.row ++ stray.row :: after.map Line.row)).head?,
      char ≠ Document.byteOrderMark := by
  refine joinLines_unmarked fun row member => ?_
  rw [List.mem_append, List.mem_cons] at member
  rcases member with inBefore | rfl | inAfter
  · obtain ⟨line, -, rfl⟩ := List.mem_map.mp inBefore
    exact line.opens
  · exact stray.opens
  · obtain ⟨line, -, rfl⟩ := List.mem_map.mp inAfter
    exact line.opens

/-- Each line takes one step of the reader, and has one character at least. -/
theorem exists_fuel (before : List Line) (stray : StrayLine) (rest : List Char) :
    ∃ fuel, (endedLines before ++ (stray.chars ++ rest)).length + 1 = before.length + (fuel + 1) ∧
      rest.length < fuel := by
  have room := length_le_endedLines before
  have sign : 0 < stray.chars.length := by
    rw [StrayLine.chars, List.length_append, List.length_append, List.length_append,
      List.length_cons]
    omega
  rw [List.length_append, List.length_append]
  exact ⟨(endedLines before).length + stray.chars.length + rest.length - before.length,
    by omega, by omega⟩

/-- A text that is read with a stray line in it is read up to that line, and then from its value
on. -/
theorem exists_readsStray (read : Document.read? (writeWith before stray after) = some entries) :
    ∃ value rest others, ReadsStray before stray after entries value rest others := by
  obtain ⟨rest, text, follows⟩ := joinLines_stray stray after
  have visible : ∀ char ∈ rest.head?, isBlank char = false := by
    rcases follows with ⟨-, rfl⟩ | rfl
    · simp
    · cases stray.ending <;> rintro _ ⟨⟩ <;> decide
  rw [writeWith, read?_ofList (unmarked_writeWith before stray after), joinLines_append,
    text] at read
  obtain ⟨statements, readAll, finished⟩ := Option.bind_eq_some_iff.mp read
  obtain ⟨document, followed, rfl⟩ := Option.map_eq_some_iff.mp finished
  obtain ⟨fuel, steps, enough⟩ := exists_fuel before stray rest
  rw [steps, readAll?_endedLines, stray.readAll?_stray fuel visible] at readAll
  obtain ⟨given, givenBefore, readRest⟩ := Option.bind_eq_some_iff.mp readAll
  obtain ⟨more, readStray, rfl⟩ := Option.map_eq_some_iff.mp readRest
  obtain ⟨⟨value, left⟩, readValue, readEnd⟩ := Option.bind_eq_some_iff.mp readStray
  obtain ⟨next, ended, readMore⟩ := Option.bind_eq_some_iff.mp readEnd
  obtain ⟨others, readOthers, rfl⟩ := Option.map_eq_some_iff.mp readMore
  rw [statements?] at givenBefore
  split at givenBefore
  · cases givenBefore
    have table : ((written before).map Setting.entry).map Statement.ofEntry ++
        Statement.ofEntry (stray.key, value) :: others =
        ((written before).map Setting.entry ++ [(stray.key, value)]).map .ofEntry ++ others := by
      simp
    rw [table] at followed
    obtain ⟨distinct, followedOthers⟩ := Document.followAll_append followed
    exact ⟨value, rest, others, follows,
      ⟨_, left, next, readValue, ended, fuel, enough, readOthers⟩, distinct, document,
      followedOthers, rfl⟩
  · cases givenBefore

namespace ReadsStray

variable (reads : ReadsStray before stray after entries value rest others)
include reads

/-- The value of a stray line is in the table in the end. -/
theorem find?_key : entries.find? stray.key = some value := by
  obtain ⟨fuel, left, next, read, -⟩ := reads.read
  obtain ⟨document, followed, rfl⟩ := reads.followed
  have distinct := reads.distinct
  rw [List.map_append, List.nodup_append] at distinct
  have absent : stray.key ∉ ((written before).map Setting.entry).map Prod.fst := fun member =>
    distinct.2.2 stray.key member stray.key (by simp) rfl
  have keeps : Document.Keeps ⟨(written before).map Setting.entry ++ [(stray.key, value)], []⟩
      stray.key value := by
    refine ⟨?_, by simp⟩
    rw [Entries.find?, List.lookup_append, ← Entries.find?, Entries.find?_eq_none.mpr absent]
    simp
  exact (keeps.followAll (Value.complete_of_read? read) followed).held

/-- A stray line before which its key was given is refused. -/
theorem fresh : stray.key ∉ (written before).map Setting.name := by
  have distinct := reads.distinct
  rw [List.map_append, List.nodup_append, map_fst_entry] at distinct
  exact fun member => distinct.2.2 stray.key member stray.key (by simp) rfl

/-- One after which its key is given has taken in the lines up to there, or else it would be refused
with them. -/
theorem spilled (again : stray.key ∈ (written after).map Setting.name) : value.Spilled := by
  obtain ⟨fuel, left, next, read, ended, stepsLeft, enough, readOthers⟩ := reads.read
  obtain ⟨document, followed, -⟩ := reads.followed
  have given : written after ≠ [] := by
    intro nothing
    rw [nothing] at again
    cases again
  have follows : rest = stray.ending.chars ++ joinLines (after.map Line.row) := by
    rcases reads.follows with ⟨rfl, -⟩ | follows
    · exact absurd rfl given
    · exact follows
  have line := stray.restOfLine (joinLines (after.map Line.row))
  rw [← follows] at line
  rcases Value.valuesEnd (lineStart_joinLines given) fuel _ _ _ line read with onLine | spilled
  · -- the next lines are read as they stand, and give the key once more
    obtain rfl : next = joinLines (after.map Line.row) := onLine.eq_of_lineEnd? ended
    have shorter : (joinLines (after.map Line.row)).length < stepsLeft := by
      rw [follows, List.length_append] at enough
      omega
    rw [readAll?_joinLines after shorter, statements?] at readOthers
    split at readOthers
    · cases readOthers
      rw [Document.followAll_ofEntry reads.distinct] at followed
      split at followed
      · rename_i distinct
        rw [List.map_append, List.nodup_append, map_fst_entry] at distinct
        exact absurd rfl (distinct.2.2 stray.key (by simp) stray.key again)
      · cases followed
    · cases readOthers
  · exact spilled

end ReadsStray

/-- A line that spoils the lines around it makes the whole text unreadable. -/
theorem ofEntries?_spoilt (spoils : stray.Spoils (before ++ after))
    (read : Document.read? (writeWith before stray after) = some entries) :
    ofEntries? entries = none := by
  obtain ⟨value, rest, others, reads⟩ := exists_readsStray read
  obtain ⟨fuel, left, next, readValue, -⟩ := reads.read
  cases spoils with
  | unknown unknown =>
      exact ofEntries?_of_find? reads.find?_key (Setting.ofEntry?_unknown unknown value)
  | repeated setting given again =>
      rw [written_append, List.mem_append] at given
      rcases given with inBefore | inAfter
      · exact absurd (List.mem_map.mpr ⟨setting, inBefore, again⟩) reads.fresh
      · have spilled := reads.spilled (List.mem_map.mpr ⟨setting, inAfter, again⟩)
        exact ofEntries?_of_find? reads.find?_key
          (Setting.ofEntry?_of_not_takes again spilled.not_takes)
  | mistyped setting known foreign =>
      have ended : ∀ char ∈ rest.head?, char = '\n' ∨ char = '\r' := by
        rcases reads.follows with ⟨-, rfl⟩ | rfl
        · simp
        · cases stray.ending <;> rintro _ ⟨⟩ <;> decide
      have notTaken := Value.not_takes_of_foreign (foreign.append ended) readValue
      exact ofEntries?_of_find? reads.find?_key (Setting.ofEntry?_of_not_takes known notTaken)

end Stray

/-- Lines that give settings, in any order and with comments and empty lines between them, are read
back as exactly these settings, unless a limit is zero, which is refused. Any lines are refused as
unreadable, whatever they give, once a line stands among them that gives an unknown name, a name
once more, or a value of another kind. -/
theorem settings_survive_writing (lines : List Line) :
    (∀ settings : Settings, (∀ setting ∈ settings.toList, setting.Writable) →
      settings.GivenBy (written lines) →
      (settings.maxVisited ≠ some 0 ∧ settings.timeoutMs ≠ some 0 →
        ofText (write lines) = .ok settings) ∧
      (settings.maxVisited = some 0 ∨ settings.timeoutMs = some 0 →
        ∃ fault, ofText (write lines) = .error (.invalidConfig fault))) ∧
    ∀ before after stray, lines = before ++ after → stray.Spoils lines →
      ∃ detail, ofText (writeWith before stray after) = .error (.unreadableConfig detail) := by
  refine ⟨fun settings writable given => ?_, ?_⟩
  · have read := ofText_write writable given
    rw [check] at read
    refine ⟨fun ⟨visits, time⟩ => ?_, fun zero => ?_⟩
    · rwa [if_neg visits, if_neg time] at read
    · by_cases visits : settings.maxVisited = some 0
      · rw [if_pos visits] at read
        exact ⟨_, read⟩
      · rw [if_neg visits, if_pos (zero.resolve_left visits)] at read
        exact ⟨_, read⟩
  · rintro before after stray rfl spoils
    exact ofText_refused fun entries read => ofEntries?_spoilt spoils read

def Blanks.spaces (count : Nat) : Blanks where
  chars := List.replicate count ' '
  blank := by simp [isBlank]

/-- A comment, an empty line, a time limit with a comment behind it, and the kind of states. -/
def commentedLines : List Line :=
  [⟨.spaces 0, none, .spaces 0, some ⟨" limits".toList, List.all_eq_true.mp rfl⟩, .lineFeed⟩,
    ⟨.spaces 2, none, .spaces 0, none, .returnAndFeed⟩,
    ⟨.spaces 2, some ⟨.timeoutMs 250, .double, .spaces 1, .spaces 1⟩, .spaces 1,
      some ⟨" for maps".toList, List.all_eq_true.mp rfl⟩, .lineFeed⟩,
    ⟨.spaces 0, some ⟨.stateKind .edgeBased, .single, .spaces 0, .spaces 0⟩, .spaces 0, none,
      .lineFeed⟩]

/-- An unknown name, a name that is given already, and a negative limit. -/
def strayLines : List StrayLine :=
  [⟨.spaces 0, "speed", .spaces 1, .spaces 1, ['1'], .lineFeed, by decide,
      List.all_eq_true.mp rfl, by simp [isBlank], by decide⟩,
    ⟨.spaces 0, "timeout_ms", .spaces 1, .spaces 1, ['9'], .lineFeed, by decide,
      List.all_eq_true.mp rfl, by simp [isBlank], by decide⟩,
    ⟨.spaces 0, "max_visited_nodes", .spaces 1, .spaces 1, ['-', '5'], .lineFeed, by decide,
      List.all_eq_true.mp rfl, by simp [isBlank], by decide⟩]

example : write commentedLines =
    "# limits\n  \r\n  timeout_ms = 250 # for maps\ntraversal_mode=\x27edge_based\x27" := by
  decide

/-- The limit of the lines is read back, a limit of zero is refused, and so is each stray line among
the others. -/
theorem settings_survive_writing_commented :
    ofText (write commentedLines) = .ok { stateKind := .edgeBased, timeoutMs := some 250 } ∧
      (∃ fault, ofText (write [⟨.spaces 0, some ⟨.maxVisited 0, .double, .spaces 1, .spaces 1⟩,
        .spaces 0, none, .lineFeed⟩]) = .error (.invalidConfig fault)) ∧
      ∀ stray ∈ strayLines,
        ∃ detail, ofText (writeWith (commentedLines.take 3) stray (commentedLines.drop 3)) =
          .error (.unreadableConfig detail) := by
  refine ⟨?_, ?_, ?_⟩
  · refine ((settings_survive_writing commentedLines).1 _ (by decide) ?_).1 (by decide)
    exact ⟨by decide, by decide, by decide⟩
  · refine ((settings_survive_writing _).1 { maxVisited := some 0 } (by decide) ?_).2 (.inl rfl)
    exact ⟨by decide, by decide, by decide⟩
  · intro stray member
    refine (settings_survive_writing commentedLines).2 _ _ stray rfl ?_
    simp only [strayLines, List.mem_cons, List.not_mem_nil, or_false] at member
    rcases member with rfl | rfl | rfl
    · exact .unknown (fun setting => by cases setting <;> simp [Setting.name])
    · exact .repeated (.timeoutMs 250) (by decide) rfl
    · exact .mistyped (.maxVisited 0) rfl (.negative [] (by decide) (by decide))

end RouteSearch.Settings
