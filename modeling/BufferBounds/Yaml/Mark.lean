/-!
# Marked characters

A YAML text as a list of characters, each with its place. Line breaks of all forms are one
character here: a carriage return, a line feed, the two together and U+0085 are read as a line
feed, and U+2028 and U+2029 stand for themselves. The last mark is at the end of the text, and its
character is NUL, which no text may hold.
-/

namespace BufferBounds

namespace Yaml

/-! ## Characters -/

/-- Is this a space or a tab? -/
def isBlank (c : Char) : Bool := c = ' ' || c = '\t'

/-- Is this a line break? -/
def isBreak (c : Char) : Bool := c = '\n' || c = '\u2028' || c = '\u2029'

/-- Does the line end here? -/
def isBreakOrEnd (c : Char) : Bool := isBreak c || c = '\x00'

/-- Does a word end here? -/
def isSpaceOrEnd (c : Char) : Bool := isBlank c || isBreakOrEnd c

/-- The ranges of the characters that a text may hold, each by its first and last character. -/
def allowedRanges : List (Nat × Nat) :=
  [(0x09, 0x0A), (0x0D, 0x0D), (0x20, 0x7E), (0x85, 0x85), (0xA0, 0xD7FF), (0xE000, 0xFFFD),
    (0x10000, 0x10FFFF)]

/-- May a text hold this character? -/
def isAllowed (c : Char) : Bool :=
  allowedRanges.any fun (first, last) => first ≤ c.toNat && c.toNat ≤ last

/-! ## Marks -/

/-- A place in a text. -/
structure Place where
  /-- how many bytes of the text are before it -/
  index : Nat
  /-- how many lines are before its line -/
  line : Nat
  /-- how many characters of its line are before it -/
  column : Nat

namespace Place

/-- The start of a text. -/
def start : Place := ⟨0, 0, 0⟩

/-- The place behind a character. -/
def next (p : Place) (c : Char) : Place :=
  { p with index := p.index + c.utf8Size, column := p.column + 1 }

/-- The place behind a line break of this many bytes. -/
def nextLine (p : Place) (width : Nat) : Place := ⟨p.index + width, p.line + 1, 0⟩

end Place

/-- A character and its place. -/
structure Mark where
  /-- the character -/
  char : Char
  /-- its place -/
  place : Place

namespace Mark

/-- The marks of characters, the first of which is at the given place. -/
def ofChars (place : Place) : List Char → List Mark
  | [] => [⟨'\x00', place⟩]
  | '\r' :: '\n' :: rest => ⟨'\n', place⟩ :: ofChars (place.nextLine 2) rest
  | c :: rest =>
    if c = '\r' ∨ c = '\u0085' then ⟨'\n', place⟩ :: ofChars (place.nextLine c.utf8Size) rest
    else if isBreak c then ⟨c, place⟩ :: ofChars (place.nextLine c.utf8Size) rest
    else ⟨c, place⟩ :: ofChars (place.next c) rest

/-- The marks of a text, if it may be read. -/
def ofText? (s : String) : Option (List Mark) :=
  if s.toList.all isAllowed then some (ofChars .start s.toList) else none

/-- The place at which the rest of a text starts. -/
def placeOf : List Mark → Place
  | [] => .start
  | mark :: _ => mark.place

/-- The character at this distance from the start of the rest of a text; NUL behind its end. -/
def charAt (marks : List Mark) (n : Nat) : Char := (marks[n]?.map Mark.char).getD '\x00'

/-- Does the line start with `---` or `...` and the end of a word? -/
def isBoundary (marks : List Mark) (c : Char) : Bool :=
  (placeOf marks).column = 0 && charAt marks 0 = c && charAt marks 1 = c && charAt marks 2 = c &&
    isSpaceOrEnd (charAt marks 3)

/-- Does the line start with a boundary of documents? -/
def isAnyBoundary (marks : List Mark) : Bool := isBoundary marks '-' || isBoundary marks '.'

end Mark

end Yaml

end BufferBounds
