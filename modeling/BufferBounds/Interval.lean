import BufferBounds.Bound

/-!
# Intervals

What is known of an integer: its one value, an interval that holds it, or nothing. Buffer sizes,
indices and scalar variables are all described this way.

`Interval.between?` builds intervals in one spelling: a single word is always `constant`, and an
interval without a finite end says nothing and is `unknown`. The operations build their results
with it, so equal knowledge is equal data.
-/

namespace BufferBounds

/-- What is known of an integer. -/
inductive Interval where
  /-- it is this word -/
  | constant (n : Int64)
  /-- it lies between two bounds, both included -/
  | range (lo hi : Bound)
  /-- nothing is known -/
  | unknown
  deriving DecidableEq

instance : Inhabited Interval := ⟨.unknown⟩

namespace Interval

/-! ## Construction -/

/-- The integers from `lo` to `hi`, in the one spelling that intervals have. There is none if
`hi < lo`. -/
def between? (lo hi : Bound) : Option Interval :=
  if hi < lo then none
  else if lo = hi then
    match lo with
    | .finite n => some (.constant n)
    | _ => some .unknown
  else if lo = .negInf ∧ hi = .posInf then some .unknown
  else some (.range lo hi)

/-- The words from `lo` to `hi`. -/
def ofWords? (lo hi : Int64) : Option Interval :=
  between? (.finite lo) (.finite hi)

/-! ## Views -/

/-- Is nothing known? -/
def isUnknown : Interval → Bool
  | .unknown => true
  | _ => false

/-- The one value, if it is known. -/
def constant? : Interval → Option Int64
  | .constant n => some n
  | _ => none

/-- Is the value known exactly? -/
def isConstant (i : Interval) : Bool := i.constant?.isSome

/-- The least and the greatest value, if anything is known. -/
def bounds? : Interval → Option (Bound × Bound)
  | .constant n => some (.finite n, .finite n)
  | .range lo hi => some (lo, hi)
  | .unknown => none

/-! ## Arithmetic -/

/-- The interval between two computed ends. A lower end reaches `+∞` only by overflow, and is then
the greatest word; an upper end that reaches `-∞` is the least word. -/
def saturated (lo hi : Bound) : Interval :=
  let lo := if lo = .posInf then .finite Int64.maxValue else lo
  let hi := if hi = .negInf then .finite Int64.minValue else hi
  (between? lo hi).getD .unknown

/-- The sums of two values. -/
def add (i j : Interval) : Interval :=
  match i.bounds?, j.bounds? with
  | some (lo₁, hi₁), some (lo₂, hi₂) =>
    match lo₁.add? lo₂, hi₁.add? hi₂ with
    | some lo, some hi => saturated lo hi
    | _, _ => .unknown
  | _, _ => .unknown

/-- The differences of two values. -/
def sub (i j : Interval) : Interval :=
  match i.bounds?, j.bounds? with
  | some (lo₁, hi₁), some (lo₂, hi₂) =>
    match lo₁.sub? hi₂, hi₁.sub? lo₂ with
    | some lo, some hi => saturated lo hi
    | _, _ => .unknown
  | _, _ => .unknown

/-- The product of two known values, if it is a word. Of anything else nothing is known. -/
def mul : Interval → Interval → Interval
  | .constant a, .constant b => ((word? (a.toInt * b.toInt)).map constant).getD .unknown
  | _, _ => .unknown

/-! ## Lattice -/

/-- What holds of a value that is one of the two: the least interval around both. -/
def join (i j : Interval) : Interval :=
  if i = j then i
  else
    match i.bounds?, j.bounds? with
    | some (lo₁, hi₁), some (lo₂, hi₂) => (between? (min lo₁ lo₂) (max hi₁ hi₂)).getD .unknown
    | _, _ => .unknown

/-- What holds of a value that is both: `none` if there is none. Of an unknown value nothing more
becomes known, and an unknown restriction restricts nothing. -/
def meet? (i j : Interval) : Option Interval :=
  match i.bounds?, j.bounds? with
  | none, _ => some .unknown
  | some _, none => some i
  | some (lo₁, hi₁), some (lo₂, hi₂) => between? (max lo₁ lo₂) (min hi₁ hi₂)

/-! ## Text -/

/-- A constant is its digits, an interval its two ends in brackets. -/
protected def toString : Interval → String
  | .constant n => toString n.toInt
  | .range lo hi => s!"[{lo}, {hi}]"
  | .unknown => "⊤"

instance : ToString Interval := ⟨Interval.toString⟩

end Interval

end BufferBounds
