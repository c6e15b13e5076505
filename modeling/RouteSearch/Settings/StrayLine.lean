/-
This file says which further lines spoil a settings text.
-/

import RouteSearch.Settings.Writer

namespace RouteSearch

open Settings (Blanks Mark)
open Settings.Text

/-- A name stands between single marks, or between three on either side. -/
def Settings.Mark.fence (mark : Mark) (several : Bool) : List Char :=
  List.replicate (if several then 3 else 1) mark.char

/-- How a name is written between marks. Between double marks, escapes stand for characters too. -/
inductive Settings.Mark.Spells (mark : Mark) : List Char → List Char → Prop where
  | nil : mark.Spells [] []
  | plain {char : Char} {name text : List Char} (isPlain : isPlain char = true)
      (inside : char ≠ mark.char) (unescaped : mark = .double → char ≠ '\x5c')
      (others : mark.Spells name text) : mark.Spells (char :: name) (char :: text)
  | escape {char : Char} {escape name text : List Char} (isDouble : mark = .double)
      (known : escape? escape = some (char, escape.length))
      (others : mark.Spells name text) : mark.Spells (char :: name) ('\x5c' :: escape ++ text)

/-- How a table in braces goes on that gives the name of a kind of states: with that name and a
table or a list, or with a key in quotes. -/
inductive Settings.NamesKind : List Char → Prop where
  | bare (indent before after : Blanks) (kind : StateKind) {char : Char} (rest : List Char)
      (opens : char = '[' ∨ char = '\x7b') :
      NamesKind (indent.chars ++ (kind.name.toList ++ (before.chars ++
        '=' :: (after.chars ++ char :: rest))))
  | quoted (indent : Blanks) (mark : Mark) (rest : List Char) :
      NamesKind (indent.chars ++ mark.char :: rest)

namespace Setting

/-- Whether a value for such a setting can start with a character. A table can give a name too. -/
def Kind.opensWith : Kind → Char → Bool
  | .name, char => char = '\x22' || char = '\x27' || char = '\x7b'
  | .count, char => char.isDigit || char = '+' || char = '-'
  | .flag, char => char = 't' || char = 'f'

/-- What stands after a digit in a number with a fraction, a number with an exponent, a date and a
time of day, and in no integer. -/
def breaksInteger (char : Char) : Bool :=
  char = '.' || char = 'e' || char = 'E' || char = '-' || char = ':'

/-- The text starts with a value of another kind. What follows that value is left open. -/
inductive Foreign : Kind → List Char → Prop where
  /-- Strings, truth values, lists and tables for a count, for one. -/
  | opening {kind : Kind} {char : Char} (rest : List Char)
      (visible : isBlank char = false) (differs : kind.opensWith char = false) :
      Foreign kind (char :: rest)
  | negative {digit : Char} (rest : List Char) (isDigit : digit.isDigit = true)
      (positive : digit ≠ '0') : Foreign .count ('-' :: digit :: rest)
  /-- Infinities with a sign, for one. -/
  | signed {sign char : Char} (rest : List Char) (isSign : sign = '+' ∨ sign = '-')
      (noDigit : char.isDigit = false) : Foreign .count (sign :: char :: rest)
  /-- Numbers that are no integers, dates and times of day. -/
  | broken {sign digits : List Char} {char : Char} (rest : List Char)
      (isSign : sign = [] ∨ sign = ['+'] ∨ sign = ['-']) (nonempty : digits ≠ [])
      (areDigits : ∀ digit ∈ digits, digit.isDigit = true ∨ digit = '_')
      (breaks : breaksInteger char = true) : Foreign .count (sign ++ digits ++ char :: rest)
  /-- An unknown name in quotes. A mark behind three belongs to the name, and one behind two opens
  it. -/
  | unknownName (mark : Mark) (several : Bool) {name text : List Char} (rest : List Char)
      (spells : mark.Spells name text)
      (closed : several = true ∨ name = [] → rest.head? ≠ some mark.char)
      (unknown : StateKind.ofName? (String.ofList name) = none) :
      Foreign .name (mark.fence several ++ (text ++ (mark.fence several ++ rest)))
  | table (rest : List Char) (differs : ¬ Settings.NamesKind rest) : Foreign .name ('\x7b' :: rest)

end Setting

namespace Settings

/-- A line that gives a bare key a value. The value stands for all that follows on the line, and
need not be a good one. -/
structure StrayLine where
  indent : Blanks
  key : String
  beforeSign : Blanks
  afterSign : Blanks
  value : List Char
  ending : LineEnd
  named : key ≠ ""
  bare : ∀ char ∈ key.toList, isKeyChar char = true
  visible : ∀ char ∈ value.head?, isBlank char = false
  oneLine : '\n' ∉ value

namespace StrayLine

def chars (stray : StrayLine) : List Char :=
  stray.indent.chars ++ (stray.key.toList ++ (stray.beforeSign.chars ++
    '=' :: (stray.afterSign.chars ++ stray.value)))

def row (stray : StrayLine) : List Char × LineEnd := (stray.chars, stray.ending)

/-- Why a line cannot stand among lines that give settings. -/
inductive Spoils (stray : StrayLine) (lines : List Line) : Prop where
  | unknown (unknown : ∀ setting : Setting, setting.name ≠ stray.key)
  | repeated (setting : Setting) (given : setting ∈ written lines)
      (again : setting.name = stray.key)
  | mistyped (setting : Setting) (known : setting.name = stray.key)
      (foreign : Setting.Foreign setting.kind stray.value)

end StrayLine

/-- The text of lines with another line among them. -/
def writeWith (before : List Line) (stray : StrayLine) (after : List Line) : String :=
  String.ofList (joinLines (before.map Line.row ++ stray.row :: after.map Line.row))

end Settings

end RouteSearch
