/-
This file writes settings as a text, one to a line.
-/

import RouteSearch.Settings.Setting
import RouteSearch.Settings.Text

namespace RouteSearch

/-- What kind of value a setting takes: a name in quotes, a natural number or a truth value. -/
inductive Setting.Kind where
  | name
  | count
  | flag
deriving DecidableEq

namespace Settings

open Text

/-- Blanks between the parts of a line. -/
structure Blanks where
  chars : List Char
  blank : ∀ char ∈ chars, isBlank char = true

/-- The words of a comment. -/
structure Remark where
  words : List Char
  plain : ∀ char ∈ words, isPlain char = true

/-- The mark on either side of a name. -/
inductive Mark where
  | single
  | double
deriving DecidableEq

def Mark.char : Mark → Char
  | .single => '\x27'
  | .double => '\x22'

inductive LineEnd where
  | lineFeed
  | returnAndFeed

def LineEnd.chars : LineEnd → List Char
  | .lineFeed => ['\n']
  | .returnAndFeed => ['\r', '\n']

end Settings

namespace Setting

open Settings (Mark)

def kind : Setting → Kind
  | .stateKind _ => .name
  | .maxVisited _ => .count
  | .timeoutMs _ => .count
  | .initialCapacity _ => .count
  | .tracksMeeting _ => .flag

/-- The value as it is written: numbers in decimal, the kind of states by its name in quotes. -/
def valueChars (mark : Mark) : Setting → List Char
  | .stateKind kind => mark.char :: kind.name.toList ++ [mark.char]
  | .maxVisited count => (toString count).toList
  | .timeoutMs milliseconds => (toString milliseconds).toList
  | .initialCapacity capacity => (toString capacity).toList
  | .tracksMeeting tracks => (if tracks then "true" else "false").toList

/-- The numbers of a text are integers of 64 bits with a sign. -/
def Writable : Setting → Prop
  | .stateKind _ => True
  | .maxVisited count => count < Nat.pow 2 63
  | .timeoutMs milliseconds => milliseconds < Nat.pow 2 63
  | .initialCapacity capacity => capacity < Nat.pow 2 63
  | .tracksMeeting _ => True

instance : DecidablePred Writable
  | .stateKind _ => isTrue trivial
  | .maxVisited count => inferInstanceAs (Decidable (count < Nat.pow 2 63))
  | .timeoutMs milliseconds => inferInstanceAs (Decidable (milliseconds < Nat.pow 2 63))
  | .initialCapacity capacity => inferInstanceAs (Decidable (capacity < Nat.pow 2 63))
  | .tracksMeeting _ => isTrue trivial

end Setting

namespace Settings

/-- A setting as it stands on a line. The mark is for the setting whose value is a name. -/
structure Assignment where
  setting : Setting
  mark : Mark
  beforeSign : Blanks
  afterSign : Blanks

def Assignment.chars (assignment : Assignment) : List Char :=
  assignment.setting.name.toList ++ (assignment.beforeSign.chars ++
    '=' :: (assignment.afterSign.chars ++ assignment.setting.valueChars assignment.mark))

/-- A line gives a setting or none, and may end with a comment. -/
structure Line where
  indent : Blanks
  assignment : Option Assignment
  trailing : Blanks
  remark : Option Remark
  ending : LineEnd

namespace Line

/-- What stands on a line after its setting. -/
def tail (line : Line) : List Char :=
  line.trailing.chars ++ line.remark.elim [] fun remark => '#' :: remark.words

def chars (line : Line) : List Char :=
  line.indent.chars ++ (line.assignment.elim [] Assignment.chars ++ line.tail)

/-- The characters of a line, and how it ends. -/
def row (line : Line) : List Char × LineEnd := (line.chars, line.ending)

def setting? (line : Line) : Option Setting :=
  line.assignment.map Assignment.setting

end Line

/-- The settings that lines give, in their order. -/
def written (lines : List Line) : List Setting :=
  lines.filterMap Line.setting?

/-- The text of rows, each with its own line end but for the last, which ends with the text. -/
def joinLines : List (List Char × LineEnd) → List Char
  | [] => []
  | [(chars, _)] => chars
  | (chars, ending) :: next :: rows => chars ++ (ending.chars ++ joinLines (next :: rows))

/-- The text of lines. A line without a setting and without a comment at the end closes it with a
line end. -/
def write (lines : List Line) : String :=
  String.ofList (joinLines (lines.map Line.row))

/-- The settings one by one. A limit that is not set is none of them. -/
def toList (settings : Settings) : List Setting :=
  .stateKind settings.stateKind :: .tracksMeeting settings.tracksMeeting ::
    ((settings.maxVisited.map .maxVisited).toList ++
      (settings.timeoutMs.map .timeoutMs).toList ++
      (settings.initialCapacity.map .initialCapacity).toList)

/-- A list that gives these settings: each at most once, and all but those that are as they are by
default, which may be left out. -/
structure GivenBy (settings : Settings) (list : List Setting) : Prop where
  once : list.Nodup
  held : ∀ setting ∈ list, setting ∈ settings.toList
  complete : ∀ setting ∈ settings.toList, setting ∈ list ∨ setting ∈ ({} : Settings).toList

end Settings

end RouteSearch
