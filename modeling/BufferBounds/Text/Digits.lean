/-!
# Digits

Numerals with a radix up to sixteen. The digits above nine are letters of either case.
-/

namespace BufferBounds

namespace Text

/-- The value of a digit, if it is one with this radix. -/
def digit? (radix : Nat) (c : Char) : Option Nat := do
  let value ← if '0' ≤ c ∧ c ≤ '9' then some (c.toNat - '0'.toNat)
    else if 'a' ≤ c ∧ c ≤ 'f' then some (c.toNat - 'a'.toNat + 10)
    else if 'A' ≤ c ∧ c ≤ 'F' then some (c.toNat - 'A'.toNat + 10)
    else none
  if value < radix then some value else none

/-- The natural number that a numeral stands for. There must be a digit, and nothing else. -/
def natural? (radix : Nat) (digits : List Char) : Option Nat :=
  if digits.isEmpty then none
  else digits.foldlM (fun n c => (digit? radix c).map (radix * n + ·)) 0

/-- The natural number that decimal digits stand for. -/
def digitsValue (digits : List Char) : Nat :=
  digits.foldl (fun n d => 10 * n + (d.toNat - '0'.toNat)) 0

/-- The last digits of a number with radix sixteen, with letters of upper case. -/
def hexDigits (n : Nat) : Nat → List Char
  | 0 => []
  | width + 1 => hexDigits (n / 16) width ++ [(Nat.digitChar (n % 16)).toUpper]

end Text

end BufferBounds
