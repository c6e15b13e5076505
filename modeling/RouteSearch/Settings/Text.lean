/-
This file reads the smallest parts of a settings text: gaps, comments, keys, strings and numbers.
Each reader answers what it has read together with the text that follows.
-/

namespace RouteSearch.Settings.Text

def isBlank (char : Char) : Bool := char = ' ' || char = '\t'

/-- What may stand in a comment or a string as it is: everything but control characters, of
which the tab alone is allowed. -/
def isPlain (char : Char) : Bool := char = '\t' || (32 ≤ char.toNat && char.toNat ≠ 127)

def dropBlanks (text : List Char) : List Char := text.dropWhile isBlank

/-- A line ends with a line feed, before which a carriage return may stand. -/
def newline? : List Char → Option (List Char)
  | '\n' :: rest => some rest
  | '\r' :: '\n' :: rest => some rest
  | _ => none

def dropComment : List Char → List Char
  | '#' :: rest => rest.dropWhile isPlain
  | text => text

/-- The end of a statement: blanks, a comment, and then the end of the line or of the text. -/
def lineEnd? (text : List Char) : Option (List Char) :=
  match dropComment (dropBlanks text) with
  | [] => some []
  | rest => newline? rest

/-- Drops blanks and line ends, with the comments if `comments` is set. -/
def dropGaps (comments : Bool) : Nat → List Char → List Char
  | 0, text => text
  | fuel + 1, text =>
      let text := dropBlanks text
      match newline? (if comments then dropComment text else text) with
      | some rest => dropGaps comments fuel rest
      | none => text

def digit? (base : Nat) (char : Char) : Option Nat :=
  let value :=
    if '0' ≤ char && char ≤ '9' then char.toNat - 48
    else if 'a' ≤ char && char ≤ 'z' then char.toNat - 87
    else if 'A' ≤ char && char ≤ 'Z' then char.toNat - 55
    else base
  if value < base then some value else none

def valueOfDigits (base : Nat) (digits : List Nat) : Nat :=
  digits.foldl (fun value digit => base * value + digit) 0

/-- The code point of as many hexadecimal digits as asked for. -/
def codePoint? (count : Nat) (text : List Char) : Option Char :=
  match (text.take count).mapM (digit? 16) with
  | none => none
  | some digits =>
      let code := valueOfDigits 16 digits
      if digits.length = count && code.isValidChar then some (Char.ofNat code) else none

/-- The character that an escape stands for, and the number of characters it takes after the
backslash. -/
def escape? : List Char → Option (Char × Nat)
  | 'b' :: _ => some ('\x08', 1)
  | 't' :: _ => some ('\t', 1)
  | 'n' :: _ => some ('\n', 1)
  | 'f' :: _ => some ('\x0c', 1)
  | 'r' :: _ => some ('\r', 1)
  | '\x22' :: _ => some ('\x22', 1)
  | '\x5c' :: _ => some ('\x5c', 1)
  | 'u' :: rest => (codePoint? 4 rest).map fun char => (char, 5)
  | 'U' :: rest => (codePoint? 8 rest).map fun char => (char, 9)
  | _ => none

/-- How a string is enclosed: by one mark on either side, or by three, between which lines may
end. Escapes count between double marks only. -/
structure Enclosure where
  mark : Char
  multiline : Bool

namespace Enclosure

def hasEscapes (enclosure : Enclosure) : Bool := enclosure.mark = '\x22'

/-- The closing marks. Of a longer run of marks the last three close, and up to two before them
belong to the string. -/
def close? (enclosure : Enclosure) (text : List Char) : Option (List Char × List Char) :=
  let run := (text.takeWhile (· = enclosure.mark)).length
  if enclosure.multiline then
    if run < 3 then none
    else
      let kept := min 2 (run - 3)
      some (List.replicate kept enclosure.mark, text.drop (kept + 3))
  else if run = 0 then none
  else some ([], text.drop 1)

/-- The next piece of a string: a plain character, a line end, an escape, or a backslash at a
line end, which stands for nothing and takes the gap that follows with it. -/
def piece? (enclosure : Enclosure) : List Char → Option (List Char × List Char)
  | [] => none
  | char :: rest =>
      if enclosure.hasEscapes && char = '\x5c' then
        match newline? (dropBlanks rest) with
        | some next =>
            if enclosure.multiline then some ([], dropGaps false next.length next) else none
        | none => (escape? rest).map fun (char, count) => ([char], rest.drop count)
      else if isPlain char then some ([char], rest)
      else if enclosure.multiline then (newline? (char :: rest)).map fun rest => (['\n'], rest)
      else none

def body? (enclosure : Enclosure) : Nat → List Char → Option (List Char × List Char)
  | 0, _ => none
  | fuel + 1, text =>
      match enclosure.close? text with
      | some closing => some closing
      | none => do
          let (piece, rest) ← enclosure.piece? text
          let (body, rest) ← enclosure.body? fuel rest
          pure (piece ++ body, rest)

end Enclosure

/-- The rest of a string that starts with the given mark on one line. -/
def lineString? (mark : Char) (text : List Char) : Option (String × List Char) :=
  (Enclosure.body? ⟨mark, false⟩ (text.length + 1) text).map fun (body, rest) =>
    (String.ofList body, rest)

/-- The rest of a string that starts with the given mark. After three marks a line end is
dropped. -/
def string? (mark : Char) (text : List Char) : Option (String × List Char) :=
  match text with
  | second :: third :: rest =>
      if second = mark && third = mark then
        let rest := (newline? rest).getD rest
        (Enclosure.body? ⟨mark, true⟩ (rest.length + 1) rest).map fun (body, rest) =>
          (String.ofList body, rest)
      else lineString? mark text
  | _ => lineString? mark text

def isKeyChar (char : Char) : Bool := char.isAlphanum || char = '_' || char = '-'

def key? : List Char → Option (String × List Char)
  | '\x22' :: rest => lineString? '\x22' rest
  | '\x27' :: rest => lineString? '\x27' rest
  | text =>
      match text.takeWhile isKeyChar with
      | [] => none
      | name => some (String.ofList name, text.dropWhile isKeyChar)

/-- One or more keys with points between them, and blanks around each. -/
def keyPath? : Nat → List Char → Option (List String × List Char)
  | 0, _ => none
  | fuel + 1, text => do
      let (key, rest) ← key? (dropBlanks text)
      match dropBlanks rest with
      | '.' :: rest => do
          let (keys, rest) ← keyPath? fuel rest
          pure (key :: keys, rest)
      | rest => pure ([key], rest)

/-- The digits of a word, between any two of which one underscore may stand. -/
def groupedDigits? (base : Nat) : List Char → Option (List Nat)
  | [] => none
  | [last] => (digit? base last).map fun digit => [digit]
  | char :: '_' :: rest => do return (← digit? base char) :: (← groupedDigits? base rest)
  | char :: rest => do return (← digit? base char) :: (← groupedDigits? base rest)

/-- A decimal number does not start with a zero, unless it is zero. -/
def decimal? (word : List Char) : Option Nat :=
  match groupedDigits? 10 word with
  | some (0 :: _ :: _) => none
  | some digits => some (valueOfDigits 10 digits)
  | none => none

def unboundedInteger? : List Char → Option Int
  | '0' :: 'x' :: digits => (groupedDigits? 16 digits).map fun digits => valueOfDigits 16 digits
  | '0' :: 'o' :: digits => (groupedDigits? 8 digits).map fun digits => valueOfDigits 8 digits
  | '0' :: 'b' :: digits => (groupedDigits? 2 digits).map fun digits => valueOfDigits 2 digits
  | '+' :: digits => (decimal? digits).map fun value => value
  | '-' :: digits => (decimal? digits).map fun value => -value
  | digits => (decimal? digits).map fun value => value

/-- An integer of 64 bits with a sign, in decimal or with a prefix for its base. -/
def integer? (word : List Char) : Option Int :=
  match unboundedInteger? word with
  | none => none
  | some value => if -Int.pow 2 63 ≤ value && value < Int.pow 2 63 then some value else none

end RouteSearch.Settings.Text
