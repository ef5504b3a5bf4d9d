import BufferBounds.Word

/-!
# Bounds

An end of an interval of integers is a word or one of the two infinities. Bounds are ordered with
the infinities outermost. Sums and differences saturate: a finite result that is no word becomes
the infinity on its side. Only `-∞ + +∞` (and what amounts to it) is undefined.
-/

namespace BufferBounds

/-- An end of an interval. -/
inductive Bound where
  /-- below every word -/
  | negInf
  /-- a word -/
  | finite (n : Int64)
  /-- above every word -/
  | posInf
  deriving DecidableEq

namespace Bound

/-! ## Order -/

/-- The infinities lie outside the words, which keep their own order. -/
protected def le : Bound → Bound → Prop
  | .negInf, _ => True
  | _, .posInf => True
  | .finite a, .finite b => a ≤ b
  | _, _ => False

instance : LE Bound := ⟨Bound.le⟩

instance : DecidableLE Bound := fun a b =>
  match a, b with
  | .negInf, _ => isTrue trivial
  | .finite _, .posInf => isTrue trivial
  | .posInf, .posInf => isTrue trivial
  | .finite m, .finite n => inferInstanceAs (Decidable (m ≤ n))
  | .finite _, .negInf => isFalse id
  | .posInf, .negInf => isFalse id
  | .posInf, .finite _ => isFalse id

instance : LT Bound := ⟨fun a b => ¬ b ≤ a⟩

instance : DecidableLT Bound := fun a b => inferInstanceAs (Decidable (¬ b ≤ a))

instance : Min Bound := minOfLe

instance : Max Bound := maxOfLe

instance : Ord Bound := ⟨fun a b => compareOfLessAndEq a b⟩

/-! ## Views -/

/-- The word of a finite bound. -/
def finite? : Bound → Option Int64
  | .finite n => some n
  | _ => none

/-- Is the bound a word? -/
def isFinite (b : Bound) : Bool := b.finite?.isSome

/-! ## Arithmetic -/

/-- The sum, saturated to an infinity where no word holds it. The sum of opposite infinities is
undefined. -/
def add? : Bound → Bound → Option Bound
  | .negInf, .posInf | .posInf, .negInf => none
  | .negInf, _ | _, .negInf => some .negInf
  | .posInf, _ | _, .posInf => some .posInf
  | .finite a, .finite b =>
    match word? (a.toInt + b.toInt) with
    | some sum => some (.finite sum)
    | none => some (if 0 < a then .posInf else .negInf)

/-- The difference `a - b`, saturated like a sum. The difference of equal infinities is undefined.

The least word has no negation, so `a - b` is then `(a + (-1 - b)) + 1`. -/
def sub? (a : Bound) : Bound → Option Bound
  | .negInf => a.add? .posInf
  | .posInf => a.add? .negInf
  | .finite b =>
    match word? (-b.toInt) with
    | some opposite => a.add? (.finite opposite)
    | none => (a.add? (.finite Int64.maxValue)).bind (·.add? (.finite 1))

/-- One less: the last valid index of a buffer of this size. Below the least word lies `-∞`. -/
def pred : Bound → Bound
  | .finite n =>
    match word? (n.toInt - 1) with
    | some m => .finite m
    | none => .negInf
  | b => b

/-! ## Text -/

/-- The decimal digits of a word, or the signed infinity. -/
protected def toString : Bound → String
  | .negInf => "-∞"
  | .posInf => "+∞"
  | .finite n => toString n.toInt

instance : ToString Bound := ⟨Bound.toString⟩

end Bound

end BufferBounds
