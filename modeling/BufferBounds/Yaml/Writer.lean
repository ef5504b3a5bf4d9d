import BufferBounds.Yaml.Datum

/-!
# Writing YAML

Data as a text, with a line for every item and every field. Within it a text is written so that it
is read as the same text.

* A text with a line feed is written as a block of its lines.
* A text with a character that does not show is written in double quotes, with escapes.
* A text that would be read as something else is written in single quotes.
* Any other text is written as it is.

A block cannot end with a space, and neither a block nor single quotes can hold a space before a
line break; nor can single quotes hold one behind it. Double quotes are used instead. Of a text
with several lines, all lines but the first are indented.
-/

namespace BufferBounds

namespace Yaml

/-! ## Characters -/

/-- The ranges of the characters that show, each by its first and last character. -/
def shownRanges : List (Nat × Nat) :=
  [(0x0A, 0x0A), (0x20, 0x7E), (0xA0, 0xD7FF), (0xE000, 0xFEFE), (0xFF00, 0xFFFD),
    (0x10000, 0x10FFFF)]

/-- Does the character show? -/
def isShown (c : Char) : Bool :=
  shownRanges.any fun (first, last) => first ≤ c.toNat && c.toNat ≤ last

/-- The characters that no text without quotes starts with. -/
def startIndicators : List Char :=
  ['#', ',', '[', ']', '\x7b', '\x7d', '&', '*', '!', '|', '>', '\'', '"', '%', '@', '\x60']

/-- Does a colon or a number sign within a text without quotes end it? The character before the
text is given. -/
def endsWithin (previous : Char) : List Char → Bool
  | [] => false
  | c :: rest =>
    c = ':' && isSpaceOrEnd (rest.headD '\x00') || c = '#' && isSpaceOrEnd previous ||
      endsWithin c rest

/-- Do two characters with these properties follow one another? -/
def hasPair (p q : Char → Bool) (chars : List Char) : Bool :=
  (chars.zip (chars.drop 1)).any fun (a, b) => p a && q b

/-- Does a text without quotes that starts like this mean something else? -/
def startsOtherwise (chars : List Char) : Bool :=
  chars.take 3 = ['-', '-', '-'] || chars.take 3 = ['.', '.', '.'] ||
    match chars with
    | [] => true
    | c :: rest =>
      startIndicators.contains c ||
        (c = '-' || c = '?' || c = ':') && isSpaceOrEnd (rest.headD '\x00')

/-! ## Styles -/

/-- A way to write a text. -/
inductive Style where
  /-- as it is -/
  | plain
  /-- in single quotes -/
  | single
  /-- in double quotes -/
  | double
  /-- as a block of lines -/
  | literal
  deriving DecidableEq

namespace Style

/-- Is the text read as a text if it is written as it is? -/
def isPlain (s : String) : Bool :=
  let chars := s.toList
  let isEdge (c : Option Char) : Bool := c = some ' '
  let isText := match Datum.ofPlain? s with
    | some (.text _) => !hasLeadingZero chars
    | _ => false
  isText && !chars.any isBreak && !isEdge chars.head? && !isEdge chars.getLast? &&
    !startsOtherwise chars && !endsWithin 'x' chars

/-- The way to write a text. -/
def ofText (s : String) : Style :=
  let chars := s.toList
  let hidden := !chars.all isShown || hasPair (· = ' ') isBreak chars
  if chars.contains '\n' then
    if hidden || chars.getLast? = some ' ' then .double else .literal
  else if hidden || hasPair isBreak (· = ' ') chars then .double
  else if isPlain s then .plain
  else .single

end Style

/-! ## Text -/

/-- A character as it is written in double quotes. -/
def escapeChar (c : Char) : List Char :=
  match c with
  | '\x00' => ['\\', '0']
  | '\x07' => ['\\', 'a']
  | '\x08' => ['\\', 'b']
  | '\t' => ['\\', 't']
  | '\n' => ['\\', 'n']
  | '\x0b' => ['\\', 'v']
  | '\x0c' => ['\\', 'f']
  | '\r' => ['\\', 'r']
  | '\x1b' => ['\\', 'e']
  | '"' => ['\\', '"']
  | '\\' => ['\\', '\\']
  | '\u0085' => ['\\', 'N']
  | '\u2028' => ['\\', 'L']
  | '\u2029' => ['\\', 'P']
  | _ =>
    if isShown c then [c]
    else if c.toNat < 0x100 then '\\' :: 'x' :: Text.hexDigits c.toNat 2
    else if c.toNat < 0x10000 then '\\' :: 'u' :: Text.hexDigits c.toNat 4
    else '\\' :: 'U' :: Text.hexDigits c.toNat 8

/-- Indents every line that is not empty; `lineStart` tells whether a line starts here. -/
def indentLines (indent : Nat) (lineStart : Bool) : List Char → List Char
  | [] => []
  | c :: rest =>
    if isBreak c then c :: indentLines indent true rest
    else
      let blanks := if lineStart then List.replicate indent ' ' else []
      blanks ++ c :: indentLines indent false rest

/-- The first line of a block: a digit if the text starts with white space, so that its indentation
does not show, and a sign that tells how many line breaks are at its end. -/
def blockHeader (chars : List Char) : List Char :=
  let digit :=
    match chars with
    | [] => []
    | c :: _ => if c = ' ' || isBreak c then ['2'] else []
  let sign :=
    match chars.reverse with
    | [] => ['-']
    | c :: before =>
      if !isBreak c then ['-']
      else
        match before with
        | [] => ['+']
        | c' :: _ => if isBreak c' then ['+'] else []
  '|' :: (digit ++ sign)

/-- A text, whose further lines are indented by this much. Only a block may have a line break at its
end. -/
def writeText (indent : Nat) (s : String) : String :=
  let chars := s.toList
  match Style.ofText s with
  | .plain => s
  | .single =>
    let quoted := chars.flatMap fun c => if c = '\'' then ['\'', '\''] else [c]
    String.ofList ('\'' :: indentLines indent false (quoted ++ ['\'']))
  | .double => String.ofList ('"' :: (chars.flatMap escapeChar ++ ['"']))
  | .literal => String.ofList (blockHeader chars ++ '\n' :: indentLines indent true chars)

/-- A text up to the end of its last line. -/
def endLine (s : String) : String := if s.toList.getLast?.any isBreak then s else s ++ "\n"

/-! ## Data -/

namespace Datum

/-- How many bytes a key may have on one line with its value. -/
def maxShortKey : Nat := 128

/-- A datum that is no collection, or an empty collection. A number that is no integer is left as it
was written. -/
def leafText (indent : Nat) : Datum → String
  | .null => "null"
  | .bool b => if b then "true" else "false"
  | .integer n => toString n
  | .decimal word => word
  | .text s => writeText indent s
  | .sequence _ => "[]"
  | .mapping _ => "\x7b\x7d"

/-- Does the datum stand on one line with its value when it is a key? -/
def isShortKey : Datum → Bool
  | .text s => s.utf8ByteSize ≤ maxShortKey &&
      !s.toList.any fun c => isBreak c || c = '\r' || c = '\u0085'
  | .decimal word => word.utf8ByteSize ≤ maxShortKey
  | .sequence items => items.isEmpty
  | .mapping fields => fields.isEmpty
  | _ => true

/-- The blanks in front of a column. -/
def blanks (column : Nat) : String := String.ofList (List.replicate column ' ')

/-- What stands between a short key in this column and its value, and the column of the value. A
collection starts on a line of its own, and a sequence is not indented there. -/
def behindKey (column : Nat) : Datum → String × Nat
  | .sequence (_ :: _) => ("\n" ++ blanks column, column)
  | .mapping (_ :: _) => ("\n" ++ blanks (column + 2), column + 2)
  | _ => (" ", column + 2)

/-- The parts of a collection one below the other, of which the first stands in this column. -/
def stacked (column : Nat) (empty : String) (parts : List String) : String :=
  if parts.isEmpty then empty else (blanks column).intercalate parts

mutual

/-- A datum up to the end of its last line, where its first line starts in this column. -/
def writeAt (column : Nat) : Datum → String
  | .sequence items => stacked column "[]\n" (writeItems column items)
  | .mapping fields => stacked column "\x7b\x7d\n" (writeFields column fields)
  | leaf => endLine (leafText column leaf)

/-- The items of a sequence, each behind a hyphen in this column. -/
def writeItems (column : Nat) : List Datum → List String
  | [] => []
  | item :: items => ("- " ++ writeAt (column + 2) item) :: writeItems column items

/-- The fields of a mapping, each with its key in this column. A key that is not short is announced,
and its value stands below it behind a colon. -/
def writeFields (column : Nat) : List (Datum × Datum) → List String
  | [] => []
  | (key, value) :: fields =>
    let field :=
      if key.isShortKey then
        let (between, start) := behindKey column value
        leafText 0 key ++ ":" ++ between ++ writeAt start value
      else
        "? " ++ writeAt (column + 2) key ++ blanks column ++ ": " ++ writeAt (column + 2) value
    field :: writeFields column fields

end

/-- The text of a datum. -/
def toText (d : Datum) : String := d.writeAt 0

end Datum

end Yaml

end BufferBounds
