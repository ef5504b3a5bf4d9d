import BufferBounds.Double
import BufferBounds.Text.Digits

/-!
# Numbers in YAML

The words that spell numbers: integers with a radix, and numbers with a fraction, an exponent, or
no finite value. A word of digits that starts with a zero is no number.
-/

namespace BufferBounds

namespace Yaml

/-- Is the word zero followed by further digits, perhaps with a sign in front of it? -/
def hasLeadingZero (word : List Char) : Bool :=
  let digits := match word with
    | '-' :: rest => rest
    | '+' :: rest => rest
    | _ => word
  match digits with
  | '0' :: rest => !rest.isEmpty && rest.all Char.isDigit
  | _ => false

/-- The natural number that a word spells, with digits of its radix behind `0x`, `0o` or `0b`, or
else with decimal digits. -/
def natural? (word : List Char) : Option Nat :=
  match word with
  | '0' :: 'x' :: digits => Text.natural? 16 digits
  | '0' :: 'o' :: digits => Text.natural? 8 digits
  | '0' :: 'b' :: digits => Text.natural? 2 digits
  | digits => if hasLeadingZero digits then none else Text.natural? 10 digits

/-- The natural number that a word spells, with a plus sign or without one. -/
def unsigned? (word : List Char) : Option Nat :=
  match word with
  | '+' :: rest => natural? rest
  | _ => natural? word

/-- The integer that a word spells, with a sign or without one. -/
def integer? (word : List Char) : Option Int :=
  match word with
  | '-' :: rest => (natural? rest).map fun n => -(n : Int)
  | _ => (unsigned? word).map fun n => (n : Int)

/-- Does an integer take no more than this many bits? A negative one takes one bit for its sign. -/
def fitsBits (bits : Nat) : Int → Bool
  | .ofNat n => n >>> bits = 0
  | .negSucc n => n >>> (bits - 1) = 0

/-- The value of a number that is no integer in its text. -/
inductive Number where
  /-- a finite number, with a minus sign or without one -/
  | finite (negative : Bool) (value : Double)
  /-- a number without bound, with a minus sign or without one -/
  | infinite (negative : Bool)
  /-- no number -/
  | undefined
  deriving DecidableEq

namespace Number

/-- The exponent that ends a word: a letter, perhaps a sign, and digits, or nothing. -/
def exponent? (word : List Char) : Option Int :=
  match word with
  | [] => some 0
  | letter :: rest =>
    if letter = 'e' || letter = 'E' then
      match rest with
      | '-' :: digits => (Text.natural? 10 digits).map fun n => -(n : Int)
      | '+' :: digits => (Text.natural? 10 digits).map fun n => (n : Int)
      | digits => (Text.natural? 10 digits).map fun n => (n : Int)
    else none

/-- The finite number that a word without a sign spells: digits, perhaps with a point among them,
and perhaps an exponent. Zero has no sign. -/
def decimal? (negative : Bool) (word : List Char) : Option Number := do
  let (whole, rest) := word.span Char.isDigit
  let (fraction, rest) := match rest with
    | '.' :: rest => rest.span Char.isDigit
    | rest => ([], rest)
  guard (!(whole ++ fraction).isEmpty)
  let value ← Double.ofDecimal? (Text.digitsValue (whole ++ fraction))
    ((← exponent? rest) - fraction.length)
  return .finite (negative && value.significand ≠ 0) value

/-- The number that a word spells. -/
def ofWord? (word : List Char) : Option Number :=
  match String.ofList word with
  | ".inf" | ".Inf" | ".INF" | "+.inf" | "+.Inf" | "+.INF" => some (.infinite false)
  | "-.inf" | "-.Inf" | "-.INF" => some (.infinite true)
  | ".nan" | ".NaN" | ".NAN" => some .undefined
  | _ =>
    match word with
    | '-' :: rest => decimal? true rest
    | '+' :: rest => decimal? false rest
    | _ => decimal? false word

end Number

end Yaml

end BufferBounds
