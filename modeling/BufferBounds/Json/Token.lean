import BufferBounds.Double
import BufferBounds.Json
import BufferBounds.Text.Digits

/-!
# JSON tokens

The tokens of a JSON text: punctuation, and the values that are no containers. The text is read a
character at a time; what was read of an unfinished token is in the `Mode`.
-/

namespace BufferBounds

namespace Json

/-! ## Numbers -/

/-- A number `mantissa * 10 ^ exponent`, as far as its digits fit 64 bits. -/
structure Numeral where
  /-- the digits that fit -/
  mantissa : Nat
  /-- the power of ten that they count for -/
  exponent : Int

namespace Numeral

/-- Takes the digits before the point. Those from the first that does not fit raise the exponent. -/
def pushWhole (n : Numeral) (digits : List Char) : Numeral :=
  match digits with
  | [] => n
  | d :: rest =>
    let mantissa := 10 * n.mantissa + (d.toNat - '0'.toNat)
    if mantissa < UInt64.size then pushWhole { n with mantissa } rest
    else { n with exponent := n.exponent + digits.length }

/-- Takes the digits behind the point. Those from the first that does not fit are left out. -/
def pushFraction (n : Numeral) (digits : List Char) : Numeral :=
  match digits with
  | [] => n
  | d :: rest =>
    let mantissa := 10 * n.mantissa + (d.toNat - '0'.toNat)
    if mantissa < UInt64.size then pushFraction ⟨mantissa, n.exponent - 1⟩ rest else n

/-- Is the number not too great for a double? It is read as the double nearest to its mantissa,
times the double nearest to its power of ten. A power below one does not make it greater. -/
def isFinite (n : Numeral) : Bool :=
  if n.mantissa = 0 ∨ n.exponent < 0 then true
  else if 308 < n.exponent then false
  else
    match Double.ofDecimal? n.mantissa 0, Double.ofDecimal? 1 n.exponent with
    | some mantissa, some power => (mantissa.mul? power).isSome
    | _, _ => false

end Numeral

/-- The exponent of a number: nothing, or a letter, perhaps a sign, and digits. -/
def exponent? (word : List Char) : Option (Option Int) :=
  match word with
  | [] => some none
  | letter :: rest =>
    if letter = 'e' || letter = 'E' then
      match rest with
      | '-' :: digits => (Text.natural? 10 digits).map fun n => some (-(n : Int))
      | '+' :: digits => (Text.natural? 10 digits).map fun n => some (n : Int)
      | digits => (Text.natural? 10 digits).map fun n => some (n : Int)
    else none

/-- The number that a word spells: an optional minus, digits without a leading zero, an optional
fraction and an optional exponent. It must not be too great for a double. Zero with a minus sign is
no integer. -/
def number? (word : List Char) : Option Json := do
  let (negative, word') := match word with
    | '-' :: rest => (true, rest)
    | _ => (false, word)
  let (whole, rest) := word'.span Char.isDigit
  guard (whole = ['0'] || !whole.isEmpty && whole.head? ≠ some '0')
  let (fraction, rest) ← match rest with
    | '.' :: rest =>
      let (digits, rest) := rest.span Char.isDigit
      if digits.isEmpty then none else some (digits, rest)
    | _ => some ([], rest)
  let exponent ← exponent? rest
  let numeral := ((Numeral.mk 0 0).pushWhole whole).pushFraction fraction
  guard { numeral with exponent := numeral.exponent + exponent.getD 0 }.isFinite
  if fraction.isEmpty && exponent.isNone && !(negative && whole = ['0']) then
    let n : Int := Text.digitsValue whole
    return .integer (if negative then -n else n)
  else
    return .decimal (String.ofList word)

/-! ## Tokens -/

/-- A token of a JSON text. -/
inductive Token where
  /-- a value that is no container -/
  | leaf (value : Json)
  /-- an opening square bracket -/
  | openArray
  /-- a closing square bracket -/
  | closeArray
  /-- an opening brace -/
  | openObject
  /-- a closing brace -/
  | closeObject
  /-- a comma -/
  | comma
  /-- a colon -/
  | colon

/-- The value that a word without quotes spells. -/
def wordValue? (word : List Char) : Option Json :=
  match String.ofList word with
  | "null" => some .null
  | "true" => some (.bool true)
  | "false" => some (.bool false)
  | _ => number? word

/-- Where the reader of tokens is. Characters read so far are kept last first; `high` is the first
half of a surrogate pair, which must be followed by the second at once. -/
inductive Mode where
  /-- between tokens -/
  | between
  /-- in a word without quotes -/
  | word (read : List Char)
  /-- in a text -/
  | text (read : List Char) (high : Option Nat)
  /-- in a text, after a backslash -/
  | escape (read : List Char) (high : Option Nat)
  /-- in a text, in the four digits of a character, with their value so far and how many are left -/
  | unicode (read : List Char) (high : Option Nat) (value left : Nat)

/-- A reader of tokens: where it is, and the tokens behind it, last first. -/
structure Scanner where
  /-- where it is -/
  mode : Mode
  /-- the tokens behind it -/
  tokens : List Token

/-- The character that a letter after a backslash stands for. -/
def unescape? : Char → Option Char
  | '"' => some '"'
  | '\\' => some '\\'
  | '/' => some '/'
  | 'b' => some '\x08'
  | 'f' => some '\x0c'
  | 'n' => some '\n'
  | 'r' => some '\r'
  | 't' => some '\t'
  | _ => none

namespace Scanner

/-- Reads a character between two tokens. -/
def begin? (tokens : List Token) (c : Char) : Option Scanner :=
  match c with
  | ' ' | '\t' | '\n' | '\r' => some ⟨.between, tokens⟩
  | '[' => some ⟨.between, .openArray :: tokens⟩
  | ']' => some ⟨.between, .closeArray :: tokens⟩
  | '\x7b' => some ⟨.between, .openObject :: tokens⟩
  | '\x7d' => some ⟨.between, .closeObject :: tokens⟩
  | ',' => some ⟨.between, .comma :: tokens⟩
  | ':' => some ⟨.between, .colon :: tokens⟩
  | '"' => some ⟨.text [] none, tokens⟩
  | _ => if c.isAlphanum || c = '-' then some ⟨.word [c], tokens⟩ else none

/-- Takes the number of a character written with four digits. A first half of a pair waits for the
second; a half of a pair on its own is no character. -/
def codeUnit? (read : List Char) (high : Option Nat) (unit : Nat) : Option Mode :=
  match high with
  | some first =>
    if 0xDC00 ≤ unit ∧ unit ≤ 0xDFFF then
      some (.text (Char.ofNat (0x10000 + (first - 0xD800) * 0x400 + (unit - 0xDC00)) :: read) none)
    else none
  | none =>
    if 0xD800 ≤ unit ∧ unit ≤ 0xDBFF then some (.text read (some unit))
    else if 0xDC00 ≤ unit ∧ unit ≤ 0xDFFF then none
    else some (.text (Char.ofNat unit :: read) none)

/-- Reads a character. -/
def step? (s : Scanner) (c : Char) : Option Scanner :=
  match s.mode with
  | .between => begin? s.tokens c
  | .word read =>
    if c.isAlphanum || c = '-' || c = '+' || c = '.' then some { s with mode := .word (c :: read) }
    else do
      let value ← wordValue? read.reverse
      begin? (.leaf value :: s.tokens) c
  | .text read high =>
    if c = '\\' then some { s with mode := .escape read high }
    else if high.isSome || c.toNat < 0x20 then none
    else if c = '"' then some ⟨.between, .leaf (.text (String.ofList read.reverse)) :: s.tokens⟩
    else some { s with mode := .text (c :: read) none }
  | .escape read high =>
    if c = 'u' then some { s with mode := .unicode read high 0 4 }
    else if high.isSome then none
    else (unescape? c).map fun c => { s with mode := .text (c :: read) none }
  | .unicode read high value left => do
    let value := 16 * value + (← Text.digit? 16 c)
    if left ≤ 1 then (codeUnit? read high value).map fun mode => { s with mode }
    else some { s with mode := .unicode read high value (left - 1) }

/-- The tokens read, if the text ends between two of them. -/
def finish? (s : Scanner) : Option (List Token) :=
  match s.mode with
  | .between => some s.tokens.reverse
  | .word read => (wordValue? read.reverse).map fun value => (.leaf value :: s.tokens).reverse
  | _ => none

end Scanner

/-- The tokens of a text. -/
def tokens? (s : String) : Option (List Token) := do
  let scanner ← s.toList.foldlM Scanner.step? ⟨.between, []⟩
  scanner.finish?

end Json

end BufferBounds
