/-!
# Doubles

The numbers with a binary fraction of double precision, and the one that is nearest to a decimal
fraction. They are computed exactly, with natural numbers.

A number `v` above zero is written with a significand of 53 bits. If the logarithms of numerator
and denominator differ by `d`, then `v` lies between `2 ^ (d - 1)` and `2 ^ (d + 1)`, so that the
exponent is `d - 53` or `d - 52`. Below the least exponent the significand has fewer bits.
-/

namespace BufferBounds

/-- A number `significand * 2 ^ exponent` of double precision. -/
structure Double where
  /-- the significand, below `2 ^ 53` -/
  significand : Nat
  /-- the exponent, `-1074` or greater -/
  exponent : Int
  deriving DecidableEq

namespace Double

/-- The bound of all significands, `2 ^ 53`. -/
def significandBound : Nat := 9007199254740992

/-- The least exponent. -/
def minExponent : Int := -1074

/-- The greatest exponent. -/
def maxExponent : Int := 971

/-- Zero. -/
def zero : Double := ⟨0, minExponent⟩

/-- The natural number nearest to a quotient; of two the even one. -/
def roundQuotient (numerator denominator : Nat) : Nat :=
  let quotient := numerator / denominator
  let rest := 2 * (numerator % denominator)
  if denominator < rest ∨ denominator = rest ∧ quotient % 2 = 1 then quotient + 1 else quotient

/-- The double nearest to a quotient above zero, unless it is too great for one. -/
def ofQuotient? (numerator denominator : Nat) : Option Double :=
  let difference : Int := (numerator.log2 : Int) - denominator.log2
  let significand (exponent : Int) : Nat :=
    roundQuotient (numerator <<< (-exponent).toNat) (denominator <<< exponent.toNat)
  let low := max minExponent (difference - 53)
  let exponent := if significand low < significandBound then low else low + 1
  let rounded := significand exponent
  let double : Double :=
    if rounded < significandBound then ⟨rounded, exponent⟩
    else ⟨significandBound / 2, exponent + 1⟩
  if double.exponent ≤ maxExponent then some double else none

/-- The double nearest to `mantissa * 10 ^ exponent`, unless it is too great for one. A number with
more than 310 digits before the point is too great, and a number below `10 ^ (-330)` is nearest to
zero, whatever its digits are. -/
def ofDecimal? (mantissa : Nat) (exponent : Int) : Option Double :=
  let digits : Int := (Nat.toDigits 10 mantissa).length + exponent
  if mantissa = 0 ∨ digits < -330 then some zero
  else if 310 < digits then none
  else ofQuotient? (mantissa * Nat.pow 10 exponent.toNat) (Nat.pow 10 (-exponent).toNat)

/-- The double nearest to a product, unless it is too great for one. -/
def mul? (a b : Double) : Option Double :=
  let product := a.significand * b.significand
  let exponent := a.exponent + b.exponent
  if product = 0 then some zero
  else ofQuotient? (product <<< exponent.toNat) (1 <<< (-exponent).toNat)

end Double

end BufferBounds
