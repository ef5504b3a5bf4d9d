import BufferBounds.Text.Digits
import BufferBounds.Yaml.Mark

/-!
# Scalars

The scalars of a YAML text: plain words, texts in quotes, and blocks of lines. In all of them a
run of spaces and line breaks is folded in one way or another. A `Run` holds such a run while what
follows it is not known yet.

A line that goes on with a plain scalar or a block must be indented by more than the collection
that it is in. The least column that it may start at is called the margin.
-/

namespace BufferBounds

namespace Yaml

/-- A scalar. -/
structure Scalar where
  /-- the text -/
  text : String
  /-- whether it was written without quotes and is no block -/
  plain : Bool

/-- The scalar of a value that is left out. -/
def Scalar.missing : Scalar := ⟨"", true⟩

/-! ## Runs of white space -/

/-- A run of white space within a scalar. Characters are listed in the order of the text. -/
structure Run where
  /-- the spaces and tabs on the first line -/
  blanks : List Char
  /-- whether the line has ended -/
  broken : Bool
  /-- the first line break, unless it was escaped -/
  first : List Char
  /-- the further line breaks -/
  more : List Char

namespace Run

/-- No white space. -/
def empty : Run := ⟨[], false, [], []⟩

/-- An escaped line break. -/
def escaped : Run := ⟨[], true, [], []⟩

/-- Is there any white space? -/
def isEmpty (r : Run) : Bool := !r.broken && r.blanks.isEmpty

/-- The run with a space, a tab or a line break behind it. Blanks after a line break do not
count. -/
def push (r : Run) (c : Char) : Run :=
  if isBreak c then
    if r.broken then { r with more := r.more ++ [c] } else ⟨[], true, [c], []⟩
  else if r.broken then r
  else { r with blanks := r.blanks ++ [c] }

/-- What the run is folded to. A single line feed becomes a space. Of several line breaks the first
is left out if it is a line feed. -/
def folded (r : Run) : List Char :=
  if r.broken then
    if r.first = ['\n'] then if r.more.isEmpty then [' '] else r.more
    else r.first ++ r.more
  else r.blanks

end Run

namespace Scalar

/-! ## Plain scalars -/

/-- Is this the start of a flow collection, its end, or the end of an item of it? -/
def isFlowIndicator (c : Char) : Bool :=
  c = ',' || c = '[' || c = ']' || c = '\x7b' || c = '\x7d'

/-- Does a plain scalar end at this character? -/
def endsPlain (flow : Bool) (c next : Char) : Bool :=
  c = ':' && isSpaceOrEnd next || flow && isFlowIndicator c

/-- Does a plain scalar end before this word? -/
def endsPlainBefore (flow : Bool) (margin : Nat) (marks : List Mark) : Bool :=
  Mark.isAnyBoundary marks || Mark.charAt marks 0 = '#' ||
    !flow && (Mark.placeOf marks).column < margin

/-- The rest of a plain scalar, with what was read of it last first and the run behind that. Gives
also whether a line break is behind the scalar, and the rest of the text. -/
def plainFrom? (flow : Bool) (margin : Nat) (read : List Char) (run : Run) :
    List Mark → Option (Scalar × Bool × List Mark)
  | [] => none
  | mark :: rest =>
    let done := (⟨String.ofList read.reverse, true⟩, run.broken, mark :: rest)
    let next := Mark.charAt rest 0
    if mark.char = '\x00' then some done
    else if isBlank mark.char || isBreak mark.char then
      if run.broken && mark.char = '\t' && mark.place.column < margin then none
      else plainFrom? flow margin read (run.push mark.char) rest
    else if !run.isEmpty && endsPlainBefore flow margin (mark :: rest) then some done
    else if flow && mark.char = ':' && (next = '?' || isFlowIndicator next) then none
    else if endsPlain flow mark.char next then some done
    else plainFrom? flow margin (mark.char :: run.folded.reverse ++ read) .empty rest

/-- The plain scalar at the start of the rest of a text. -/
def plain? (flow : Bool) (margin : Nat) (marks : List Mark) :
    Option (Scalar × Bool × List Mark) :=
  plainFrom? flow margin [] .empty marks

/-! ## Quoted scalars -/

/-- The rest of a text in single quotes, in which a quote is written twice. -/
def singleFrom? (read : List Char) (run : Run) : List Mark → Option (Scalar × List Mark)
  | [] => none
  | mark :: rest =>
    if isBlank mark.char || isBreak mark.char then singleFrom? read (run.push mark.char) rest
    else if mark.char = '\x00' || Mark.isAnyBoundary (mark :: rest) then none
    else
      let read := run.folded.reverse ++ read
      if mark.char = '\'' then
        match rest with
        | mark' :: rest' =>
          if mark'.char = '\'' then singleFrom? ('\'' :: read) .empty rest'
          else some (⟨String.ofList read.reverse, false⟩, rest)
        | [] => some (⟨String.ofList read.reverse, false⟩, rest)
      else singleFrom? (mark.char :: read) .empty rest

/-- The character that a letter after a backslash stands for. -/
def unescape? : Char → Option Char
  | '0' => some '\x00'
  | 'a' => some '\x07'
  | 'b' => some '\x08'
  | 't' => some '\t'
  | '\t' => some '\t'
  | 'n' => some '\n'
  | 'v' => some '\x0b'
  | 'f' => some '\x0c'
  | 'r' => some '\r'
  | 'e' => some '\x1b'
  | ' ' => some ' '
  | '"' => some '"'
  | '/' => some '/'
  | '\\' => some '\\'
  | 'N' => some '\u0085'
  | '_' => some '\u00a0'
  | 'L' => some '\u2028'
  | 'P' => some '\u2029'
  | _ => none

/-- How many digits follow this letter after a backslash. -/
def escapeWidth? : Char → Option Nat
  | 'x' => some 2
  | 'u' => some 4
  | 'U' => some 8
  | _ => none

/-- The character with this number. -/
def charOfNat? (n : Nat) : Option Char := if n.isValidChar then some (Char.ofNat n) else none

/-- The rest of a text in double quotes, in which a backslash starts an escape. An escaped line
break is left out, together with the blanks behind it. -/
def doubleFrom? (read : List Char) (run : Run) (marks : List Mark) : Option (Scalar × List Mark) :=
  match marks with
  | [] => none
  | mark :: rest =>
    if isBlank mark.char || isBreak mark.char then doubleFrom? read (run.push mark.char) rest
    else if mark.char = '\x00' || Mark.isAnyBoundary (mark :: rest) then none
    else
      let read := run.folded.reverse ++ read
      if mark.char = '"' then some (⟨String.ofList read.reverse, false⟩, rest)
      else if mark.char = '\\' then
        match rest with
        | [] => none
        | letter :: rest =>
          if isBreak letter.char then doubleFrom? read .escaped rest
          else
            match escapeWidth? letter.char with
            | some width => do
              let digits := (rest.take width).map Mark.char
              if digits.length < width then none
              else
                let c ← charOfNat? (← Text.natural? 16 digits)
                doubleFrom? (c :: read) .empty (rest.drop width)
            | none => do doubleFrom? ((← unescape? letter.char) :: read) .empty rest
      else doubleFrom? (mark.char :: read) .empty rest
termination_by marks.length

/-! ## Blocks of lines -/

/-- What becomes of the line breaks at the end of a block. -/
inductive Chomping where
  /-- all are left out -/
  | strip
  /-- the first is kept -/
  | clip
  /-- all are kept -/
  | keep
  deriving DecidableEq

/-- The sign of a way to end a block. -/
def Chomping.ofSign? : Char → Option Chomping
  | '-' => some .strip
  | '+' => some .keep
  | _ => none

/-- The first line of a block, behind its indicator: a sign, a digit, both in either order, or
neither. Zero is no indentation. Nothing but a comment may follow. -/
def blockHeader? (marks : List Mark) : Option (Chomping × Option Nat × List Mark) := do
  let sign (marks : List Mark) : Option Chomping × List Mark :=
    match Chomping.ofSign? (Mark.charAt marks 0) with
    | some chomping => (some chomping, marks.drop 1)
    | none => (none, marks)
  let digit (marks : List Mark) : Option Nat × List Mark :=
    match Text.digit? 10 (Mark.charAt marks 0) with
    | some n => (some n, marks.drop 1)
    | none => (none, marks)
  let (before, marks) := sign marks
  let (indentation, marks) := digit marks
  let (after, marks) := if before.isNone && indentation.isSome then sign marks else (none, marks)
  guard (indentation ≠ some 0)
  let marks := marks.dropWhile fun mark => isBlank mark.char
  let marks :=
    if Mark.charAt marks 0 = '#' then marks.dropWhile fun mark => !isBreakOrEnd mark.char else marks
  guard (isBreakOrEnd (Mark.charAt marks 0))
  let rest := if isBreak (Mark.charAt marks 0) then marks.drop 1 else marks
  return ((before <|> after).getD .clip, indentation, rest)

/-- How far the first lines of a block are indented, up to the first that is not empty. A tab may
not come before it. -/
def indentOfLines? (deepest : Nat) : List Mark → Option Nat
  | [] => some deepest
  | mark :: rest =>
    if mark.char = ' ' then indentOfLines? deepest rest
    else
      let deepest := max deepest mark.place.column
      if mark.char = '\t' then none
      else if isBreak mark.char then indentOfLines? deepest rest
      else some deepest

/-- A block that is being read. -/
structure Block where
  /-- what was read, last first -/
  read : List Char
  /-- the line break behind it, if it is still open whether it is kept -/
  lineEnd : List Char
  /-- the further line breaks behind that -/
  more : List Char
  /-- whether the last line started with a blank -/
  blank : Bool

namespace Block

/-- Starts a line with a character. In a folded block a single line feed between two lines that
do not start with a blank becomes a space, and of several the first is left out. -/
def push (literal : Bool) (b : Block) (c : Char) : Block :=
  let lineEnd :=
    if !literal && b.lineEnd = ['\n'] && !b.blank && !isBlank c then
      if b.more.isEmpty then [' '] else []
    else b.lineEnd
  ⟨c :: (b.more.reverse ++ (lineEnd.reverse ++ b.read)), [], [], isBlank c⟩

/-- The text of the block. -/
def text (chomping : Chomping) (b : Block) : String :=
  let lineEnd := if chomping = .strip then [] else b.lineEnd
  let more := if chomping = .keep then b.more else []
  String.ofList (b.read.reverse ++ lineEnd ++ more)

end Block

/-- The lines of a block with this indentation; `within` tells whether the text goes on in the
middle of a line. -/
def blockLines? (literal : Bool) (indent : Nat) (block : Block) (within : Bool) :
    List Mark → Option (Block × List Mark)
  | [] => none
  | mark :: rest =>
    let c := mark.char
    if c = '\x00' then some (block, mark :: rest)
    else if within then
      if isBreak c then
        blockLines? literal indent { block with lineEnd := [c], more := [] } false rest
      else blockLines? literal indent { block with read := c :: block.read } true rest
    else if isBreak c then
      blockLines? literal indent { block with more := block.more ++ [c] } false rest
    else if mark.place.column < indent && c = ' ' then
      blockLines? literal indent block false rest
    else if mark.place.column < indent && c = '\t' then none
    else if mark.place.column = indent then
      blockLines? literal indent (block.push literal c) true rest
    else some (block, mark :: rest)

/-- The block whose header starts here. Without a digit in the header it is indented as its first
line is, and at least up to the margin. -/
def block? (literal : Bool) (margin : Nat) (marks : List Mark) : Option (Scalar × List Mark) := do
  let (chomping, indentation, marks) ← blockHeader? marks
  let indent ← match indentation with
    | some n => some (margin - 1 + n)
    | none => (indentOfLines? 0 marks).map fun deepest => max (max deepest margin) 1
  let (block, marks) ← blockLines? literal indent ⟨[], [], [], false⟩ false marks
  return (⟨block.text chomping, false⟩, marks)

end Scalar

end Yaml

end BufferBounds
