/-
This file reads a settings text as a tree of named values. Floating-point numbers, dates and
filled lists can stand in such a text, but no setting takes one, so they are refused here.
-/

import RouteSearch.Settings.Text

namespace RouteSearch.Settings

/-- How a table came to be, which decides who may add to it. -/
inductive TableOrigin where
  /-- Written in braces, and complete. -/
  | inline
  /-- Made by a key with points. -/
  | dotted
  /-- Made on the way by the header of a table inside it. -/
  | implied
  /-- Opened by its own header. -/
  | header
deriving DecidableEq

inductive Value where
  | string (text : String)
  | integer (value : Int)
  | boolean (value : Bool)
  | emptyList
  | table (origin : TableOrigin) (entries : List (String × Value))

/-- The named values of a table, in the order in which they were written. -/
abbrev Entries := List (String × Value)

namespace Entries

def find? (entries : Entries) (key : String) : Option Value :=
  entries.lookup key

def replace (entries : Entries) (key : String) (value : Value) : Entries :=
  entries.map fun entry => if entry.1 = key then (key, value) else entry

/-- Gives the value at a path a name that must be new. Tables on the way are made, or were made
by a key with points before. -/
def assign? (value : Value) : List String → Entries → Option Entries
  | [], _ => none
  | [key], entries =>
      match entries.find? key with
      | none => some (entries ++ [(key, value)])
      | some _ => none
  | key :: path, entries =>
      match entries.find? key with
      | none => (assign? value path []).map fun inner => entries ++ [(key, .table .dotted inner)]
      | some (.table .dotted known) =>
          (assign? value path known).map fun inner => entries.replace key (.table .dotted inner)
      | some _ => none

/-- Opens the table at a path. It must be new, or implied by a header read before. -/
def openTable? : List String → Entries → Option Entries
  | [], _ => none
  | [key], entries =>
      match entries.find? key with
      | none => some (entries ++ [(key, .table .header [])])
      | some (.table .implied known) => some (entries.replace key (.table .header known))
      | some _ => none
  | key :: path, entries =>
      match entries.find? key with
      | none => (openTable? path []).map fun inner => entries ++ [(key, .table .implied inner)]
      | some (.table .inline _) => none
      | some (.table origin known) =>
          (openTable? path known).map fun inner => entries.replace key (.table origin inner)
      | some _ => none

/-- Changes the table at a path that is there. -/
def changeAt? (change : Entries → Option Entries) : List String → Entries → Option Entries
  | [], entries => change entries
  | key :: path, entries =>
      match entries.find? key with
      | some (.table origin known) =>
          (changeAt? change path known).map fun inner =>
            entries.replace key (.table origin inner)
      | _ => none

end Entries

namespace Value

open Text

def isWordChar (char : Char) : Bool :=
  isKeyChar char || char = '+' || char = '.' || char = ':'

/-- A value without marks around it. -/
def ofWord? (word : List Char) : Option Value :=
  match String.ofList word with
  | "true" => some (.boolean true)
  | "false" => some (.boolean false)
  | _ => (integer? word).map .integer

mutual

def read? : Nat → List Char → Option (Value × List Char)
  | 0, _ => none
  | fuel + 1, text =>
      match text with
      | '\x22' :: rest => (string? '\x22' rest).map fun (body, rest) => (.string body, rest)
      | '\x27' :: rest => (string? '\x27' rest).map fun (body, rest) => (.string body, rest)
      | '[' :: rest =>
          match dropGaps true rest.length rest with
          | ']' :: rest => some (.emptyList, rest)
          | _ => none
      | '\x7b' :: rest =>
          match dropBlanks rest with
          | '\x7d' :: rest => some (.table .inline [], rest)
          | rest =>
              (readEntries? fuel [] rest).map fun (entries, rest) =>
                (.table .inline entries, rest)
      | text => (ofWord? (text.takeWhile isWordChar)).map fun value =>
          (value, text.dropWhile isWordChar)

/-- The entries of a table in braces, with commas between them, up to the closing brace. -/
def readEntries? : Nat → Entries → List Char → Option (Entries × List Char)
  | 0, _, _ => none
  | fuel + 1, known, text => do
      let (path, rest) ← keyPath? (text.length + 1) text
      match rest with
      | '=' :: rest => do
          let (value, rest) ← read? fuel (dropBlanks rest)
          let entries ← known.assign? value path
          match dropBlanks rest with
          | '\x7d' :: rest => pure (entries, rest)
          | ',' :: rest => readEntries? fuel entries rest
          | _ => none
      | _ => none

end

end Value

/-- A line that gives a value a name, or one that opens a table. -/
inductive Statement where
  | assign (path : List String) (value : Value)
  | header (path : List String)

namespace Statement

open Text

/-- Reads a statement and the end of its line. -/
def read? (text : List Char) : Option (Statement × List Char) :=
  match text with
  | '[' :: rest => do
      let (path, rest) ← keyPath? (rest.length + 1) rest
      match rest with
      | ']' :: rest => (lineEnd? rest).map fun rest => (.header path, rest)
      | _ => none
  | text => do
      let (path, rest) ← keyPath? (text.length + 1) text
      match rest with
      | '=' :: rest => do
          let (value, rest) ← Value.read? (rest.length + 1) (dropBlanks rest)
          (lineEnd? rest).map fun rest => (.assign path value, rest)
      | _ => none

/-- All statements of a text. Lines may hold no more than blanks and a comment. -/
def readAll? : Nat → List Char → Option (List Statement)
  | 0, _ => none
  | fuel + 1, text =>
      match dropBlanks text with
      | [] => some []
      | text =>
          match lineEnd? text with
          | some rest => readAll? fuel rest
          | none => do
              let (statement, rest) ← read? text
              return statement :: (← readAll? fuel rest)

end Statement

/-- The entries read so far, and the path of the table that was opened last. -/
structure Document where
  entries : Entries
  current : List String

namespace Document

def empty : Document := ⟨[], []⟩

def follow? (document : Document) : Statement → Option Document
  | .assign path value =>
      (document.entries.changeAt? (Entries.assign? value path) document.current).map fun entries =>
        { document with entries := entries }
  | .header path =>
      (document.entries.openTable? path).map fun entries => ⟨entries, path⟩

def byteOrderMark : Char := Char.ofNat 0xfeff

def dropMark : List Char → List Char
  | [] => []
  | first :: rest => if first = byteOrderMark then rest else first :: rest

/-- The tree of a text. A byte order mark before it is dropped. -/
def read? (text : String) : Option Entries := do
  let chars := dropMark text.toList
  let statements ← Statement.readAll? (chars.length + 1) chars
  let document ← statements.foldlM follow? empty
  pure document.entries

end Document

end RouteSearch.Settings
