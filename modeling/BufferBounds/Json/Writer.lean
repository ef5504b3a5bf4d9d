import BufferBounds.Json

/-!
# Writing JSON

A value as a text, on one line or with a line for every part. Both leave all characters as they
are but those that a text cannot hold: the quote, the backslash and the control characters below
the blank.
-/

namespace BufferBounds

namespace Json

/-! ## Texts -/

/-- The two hexadecimal digits of a control character, in lower case. -/
def controlDigits (c : Char) : String :=
  String.ofList [Nat.digitChar (c.toNat / 16), Nat.digitChar (c.toNat % 16)]

/-- A character as it is written in a text. -/
def escapeChar (c : Char) : String :=
  match c with
  | '"' => "\\\""
  | '\\' => "\\\\"
  | '\x08' => "\\b"
  | '\x0c' => "\\f"
  | '\n' => "\\n"
  | '\r' => "\\r"
  | '\t' => "\\t"
  | _ => if c.toNat < 0x20 then "\\u00" ++ controlDigits c else c.toString

/-- A text in quotes. -/
def quote (s : String) : String :=
  "\"" ++ String.join (s.toList.map escapeChar) ++ "\""

/-- The text of a value that is no container. -/
def leafText : Json → String
  | .null => "null"
  | .bool b => if b then "true" else "false"
  | .integer n => toString n
  | .decimal digits => digits
  | .text s => quote s
  | .array _ => "[]"
  | .object _ => "\x7b\x7d"

/-! ## One line -/

mutual

/-- The value on one line, without blanks. -/
def compact : Json → String
  | .array items => "[" ++ ",".intercalate (compactItems items) ++ "]"
  | .object fields => "\x7b" ++ ",".intercalate (compactFields fields) ++ "\x7d"
  | leaf => leafText leaf

/-- The items of an array, each on one line. -/
def compactItems : List Json → List String
  | [] => []
  | item :: items => item.compact :: compactItems items

/-- The fields of an object, each on one line. -/
def compactFields : List (String × Json) → List String
  | [] => []
  | (name, value) :: fields => (quote name ++ ":" ++ value.compact) :: compactFields fields

end

/-! ## A line for every part -/

/-- The parts of a container between brackets, each on a line of its own that is indented by
two blanks more than the container. -/
def bracketed (indent : String) (first last : String) (parts : List String) : String :=
  if parts.isEmpty then first ++ last
  else
    let separator := ",\n" ++ indent ++ "  "
    first ++ "\n" ++ indent ++ "  " ++ separator.intercalate parts ++ "\n" ++ indent ++ last

mutual

/-- The value with a line for every part, where its first line is indented by `indent`. -/
def prettyAt (indent : String) : Json → String
  | .array items => bracketed indent "[" "]" (prettyItems (indent ++ "  ") items)
  | .object fields => bracketed indent "\x7b" "\x7d" (prettyFields (indent ++ "  ") fields)
  | leaf => leafText leaf

/-- The items of an array, each with a line for every part. -/
def prettyItems (indent : String) : List Json → List String
  | [] => []
  | item :: items => prettyAt indent item :: prettyItems indent items

/-- The fields of an object, each with a line for every part. -/
def prettyFields (indent : String) : List (String × Json) → List String
  | [] => []
  | (name, value) :: fields =>
    (quote name ++ ": " ++ prettyAt indent value) :: prettyFields indent fields

end

/-- The value with a line for every part. -/
def pretty (j : Json) : String := prettyAt "" j

end Json

end BufferBounds
