import BufferBounds.Yaml.Scalar

/-!
# YAML tokens

The tokens of a YAML text. Block collections have no brackets in the text: they start where a line
is indented more than the lines before it, and end where one is indented less.

A key of a mapping need not be announced either. When a scalar or a flow collection starts where a
key may stand, its place is kept as a candidate. If a colon follows on the same line and not too
far away, the token of the key, and if need be of the mapping, is put in front of the candidate.
-/

namespace BufferBounds

namespace Yaml

/-- A token of a YAML text. -/
inductive Token where
  /-- the start of a document -/
  | documentStart
  /-- the end of a document -/
  | documentEnd
  /-- the start of a sequence in a block -/
  | blockSequence
  /-- the start of a mapping in a block -/
  | blockMapping
  /-- the end of a collection in a block -/
  | blockEnd
  /-- an opening square bracket -/
  | openSequence
  /-- a closing square bracket -/
  | closeSequence
  /-- an opening brace -/
  | openMapping
  /-- a closing brace -/
  | closeMapping
  /-- a hyphen in front of an item -/
  | item
  /-- a comma -/
  | comma
  /-- the start of a key -/
  | key
  /-- the start of a value -/
  | value
  /-- a scalar -/
  | scalar (scalar : Scalar)

/-- A place where a key may have started. -/
structure Candidate where
  /-- how many tokens are before it -/
  tokens : Nat
  /-- the place -/
  place : Place
  /-- whether nothing but a key may stand there -/
  required : Bool

/-- How many bytes a key that is not announced may have. -/
def maxKeyLength : Nat := 1024

/-- A reader of tokens. -/
structure Scanner where
  /-- the rest of the text -/
  marks : List Mark
  /-- the tokens behind it, last first -/
  tokens : List Token
  /-- the columns of the open block collections, the innermost first -/
  columns : List Nat
  /-- the candidates around the open flow collections, the innermost first -/
  outer : List (Option Candidate)
  /-- the candidate in the innermost flow collection, or in the block -/
  candidate : Option Candidate
  /-- whether a key may start here without being announced -/
  keyAllowed : Bool

namespace Scanner

/-- A reader at the start of a text. -/
def ofMarks (marks : List Mark) : Scanner := ⟨marks, [], [], [], none, true⟩

/-- The character at this distance. -/
def charAt (s : Scanner) (n : Nat) : Char := Mark.charAt s.marks n

/-- The place of the reader. -/
def place (s : Scanner) : Place := Mark.placeOf s.marks

/-- Is a flow collection open? -/
def inFlow (s : Scanner) : Bool := !s.outer.isEmpty

/-- The least column of a line that goes on with what is in the innermost block collection. -/
def margin (s : Scanner) : Nat :=
  match s.columns with
  | [] => 0
  | column :: _ => column + 1

/-- Passes some characters. -/
def skip (s : Scanner) (n : Nat) : Scanner := { s with marks := s.marks.drop n }

/-- Adds a token. -/
def emit (s : Scanner) (token : Token) : Scanner := { s with tokens := token :: s.tokens }

/-- Puts a token behind the first `n` tokens. -/
def insert (s : Scanner) (n : Nat) (token : Token) : Scanner :=
  let behind := s.tokens.length - n
  { s with tokens := s.tokens.take behind ++ token :: s.tokens.drop behind }

/-! ## White space -/

/-- Passes white space and comments. Tabs are white space unless a key may start in a block, and a
byte order mark is at the start of a line. In a block a key may start on a new line. Gives the rest
of the text and whether a key may start. -/
def blanksFrom (flow keyAllowed comment : Bool) : List Mark → List Mark × Bool
  | [] => ([], keyAllowed)
  | mark :: rest =>
    if isBreak mark.char then blanksFrom flow (keyAllowed || !flow) false rest
    else if mark.char = '\x00' then (mark :: rest, keyAllowed)
    else if comment || mark.char = '#' then blanksFrom flow keyAllowed true rest
    else if mark.char = ' ' || mark.char = '\t' && (flow || !keyAllowed) ||
        mark.char = '\uFEFF' && mark.place.column = 0 then
      blanksFrom flow keyAllowed false rest
    else (mark :: rest, keyAllowed)

/-- Passes white space and comments. -/
def skipBlanks (s : Scanner) : Scanner :=
  let (marks, keyAllowed) := blanksFrom s.inFlow s.keyAllowed false s.marks
  { s with marks, keyAllowed }

/-! ## Candidates -/

/-- Refuses to lose a candidate where nothing but a key may stand. -/
def lose? : Option Candidate → Option (Option Candidate)
  | some candidate => if candidate.required then none else some none
  | none => some none

/-- Drops the candidate. -/
def dropCandidate? (s : Scanner) : Option Scanner := do
  return { s with candidate := ← lose? s.candidate }

/-- Drops the candidates that are on an earlier line or too far away. -/
def dropStale? (s : Scanner) : Option Scanner := do
  let fresh? (candidate : Option Candidate) : Option (Option Candidate) :=
    match candidate with
    | none => some none
    | some c =>
      if c.place.line < s.place.line || c.place.index + maxKeyLength < s.place.index then
        lose? (some c)
      else some (some c)
  return { s with candidate := ← fresh? s.candidate, outer := ← s.outer.mapM fresh? }

/-- Makes this place a candidate, if a key may start here. In a block nothing but a key may stand at
the column of the innermost collection. -/
def offer? (s : Scanner) : Option Scanner :=
  if s.keyAllowed then
    let required := !s.inFlow && s.columns.head? == some s.place.column
    (s.dropCandidate?).map fun s =>
      { s with candidate := some ⟨s.tokens.length, s.place, required⟩ }
  else some s

/-! ## Block collections -/

/-- Starts a block collection at a column, unless it is already open. Its token is put behind the
first `n` tokens. -/
def openBlock (s : Scanner) (column n : Nat) (token : Token) : Scanner :=
  if !s.inFlow && s.margin ≤ column then
    { s.insert n token with columns := column :: s.columns }
  else s

/-- Ends the block collections of these columns. -/
def closeBlocks (s : Scanner) (closed : Nat → Bool) : Scanner :=
  if s.inFlow then s
  else
    { s with
      columns := s.columns.dropWhile closed
      tokens := (s.columns.takeWhile closed).map (fun _ => Token.blockEnd) ++ s.tokens }

/-! ## Tokens -/

/-- Reads a boundary of documents. -/
def boundary? (s : Scanner) (token : Token) : Option Scanner := do
  let s ← (s.closeBlocks fun _ => true).dropCandidate?
  return { s.skip 3 with keyAllowed := false }.emit token

/-- Reads an opening bracket. -/
def open? (s : Scanner) (token : Token) : Option Scanner := do
  let s ← s.offer?
  let s := (s.skip 1).emit token
  return { s with outer := s.candidate :: s.outer, candidate := none, keyAllowed := true }

/-- Reads a closing bracket of either form. The whole flow collection may be a key. Outside of flow
collections the bracket closes nothing here. -/
def close? (s : Scanner) (token : Token) : Option Scanner := do
  let s ← s.dropCandidate?
  let s := (s.skip 1).emit token
  match s.outer with
  | [] => return { s with keyAllowed := false }
  | candidate :: outer => return { s with candidate, outer, keyAllowed := false }

/-- Reads a comma. -/
def comma? (s : Scanner) : Option Scanner := do
  let s ← s.dropCandidate?
  return { (s.skip 1).emit .comma with keyAllowed := true }

/-- Reads a hyphen in front of an item. -/
def item? (s : Scanner) : Option Scanner := do
  guard (s.inFlow || s.keyAllowed)
  let s ← (s.openBlock s.place.column s.tokens.length .blockSequence).dropCandidate?
  return { (s.skip 1).emit .item with keyAllowed := true }

/-- Reads a question mark in front of a key. -/
def key? (s : Scanner) : Option Scanner := do
  guard (s.inFlow || s.keyAllowed)
  let s ← (s.openBlock s.place.column s.tokens.length .blockMapping).dropCandidate?
  return { (s.skip 1).emit .key with keyAllowed := !s.inFlow }

/-- Reads a colon in front of a value. If there is a candidate, it is the key. -/
def value? (s : Scanner) : Option Scanner :=
  match s.candidate with
  | some c =>
    let s := (s.insert c.tokens .key).openBlock c.place.column c.tokens .blockMapping
    some { (s.skip 1).emit .value with candidate := none, keyAllowed := false }
  | none => do
    guard (s.inFlow || s.keyAllowed)
    let s := s.openBlock s.place.column s.tokens.length .blockMapping
    return { (s.skip 1).emit .value with keyAllowed := !s.inFlow }

/-- Reads a text in quotes. -/
def quoted? (s : Scanner) (scalarFrom? : List Mark → Option (Scalar × List Mark)) :
    Option Scanner := do
  let s ← s.offer?
  let (scalar, marks) ← scalarFrom? (s.marks.drop 1)
  return { s.emit (.scalar scalar) with marks, keyAllowed := false }

/-- Reads a block of lines. -/
def block? (s : Scanner) (literal : Bool) : Option Scanner := do
  let s ← s.dropCandidate?
  let (scalar, marks) ← Scalar.block? literal s.margin (s.marks.drop 1)
  return { s.emit (.scalar scalar) with marks, keyAllowed := true }

/-- Reads a plain scalar. A key may start behind it if it goes to the end of its line. -/
def plain? (s : Scanner) : Option Scanner := do
  let s ← s.offer?
  let (scalar, broken, marks) ← Scalar.plain? s.inFlow s.margin s.marks
  return { s.emit (.scalar scalar) with marks, keyAllowed := broken }

/-- The characters that no plain scalar starts with. -/
def indicators : List Char :=
  ['-', '?', ':', ',', '[', ']', '\x7b', '\x7d', '#', '&', '*', '!', '|', '>', '\'', '"', '%', '@',
    '\x60']

/-- May a plain scalar start here? -/
def startsPlain (s : Scanner) : Bool :=
  let c := s.charAt 0
  let next := s.charAt 1
  !(isSpaceOrEnd c || indicators.contains c) ||
    c = '-' && !isBlank next ||
    !s.inFlow && (c = '?' || c = ':') && !isSpaceOrEnd next

/-- Reads the token that starts here. Tags, anchors and directives are not read. -/
def token? (s : Scanner) : Option Scanner :=
  let c := s.charAt 0
  let wordEnds := isSpaceOrEnd (s.charAt 1)
  if s.place.column = 0 && c = '%' then none
  else if Mark.isBoundary s.marks '-' then s.boundary? .documentStart
  else if Mark.isBoundary s.marks '.' then s.boundary? .documentEnd
  else if c = '[' then s.open? .openSequence
  else if c = '\x7b' then s.open? .openMapping
  else if c = ']' then s.close? .closeSequence
  else if c = '\x7d' then s.close? .closeMapping
  else if c = ',' then s.comma?
  else if c = '-' && wordEnds then s.item?
  else if c = '?' && (s.inFlow || wordEnds) then s.key?
  else if c = ':' && (s.inFlow || wordEnds) then s.value?
  else if c = '|' && !s.inFlow then s.block? true
  else if c = '>' && !s.inFlow then s.block? false
  else if c = '\'' then s.quoted? (Scalar.singleFrom? [] .empty)
  else if c = '"' then s.quoted? (Scalar.doubleFrom? [] .empty)
  else if s.startsPlain then s.plain?
  else none

/-- Reads the next token. -/
def step? (s : Scanner) : Option Scanner := do
  let s ← s.skipBlanks.dropStale?
  let column := s.place.column
  (s.closeBlocks fun open' => column < open').token?

/-- Is nothing but white space left? -/
def isAtEnd (s : Scanner) : Bool := s.skipBlanks.charAt 0 = '\x00'

/-- All tokens, at the end of the text. -/
def finish? (s : Scanner) : Option (List Token) := do
  let s ← (← s.skipBlanks.dropStale?).dropCandidate?
  return (s.closeBlocks fun _ => true).tokens.reverse

/-- Reads all tokens. Every token takes some of the text. -/
def run? (s : Scanner) : Option (List Token) :=
  if s.isAtEnd then s.finish?
  else
    match s.step? with
    | none => none
    | some s' => if s'.marks.length < s.marks.length then s'.run? else none
termination_by s.marks.length

end Scanner

/-- The tokens of a text. -/
def tokens? (s : String) : Option (List Token) := do
  (Scanner.ofMarks (← Mark.ofText? s)).run?

end Yaml

end BufferBounds
