import BufferBounds.Interval

/-!
# Verdicts

Whether an index is valid for a buffer, as far as their intervals tell. With the size between
`Smin` and `Smax` and the index between `Imin` and `Imax`,

* the access is in bounds if `0 ≤ Imin` and `Imax ≤ Smin - 1`: every index is valid for every size;
* it is out of bounds if `Imax < 0` or `Smax - 1 < Imin`: every index is invalid for every size;
* else the interval straddles the end of the buffer, and the policy decides.

Of an unknown size or index nothing is decided.
-/

namespace BufferBounds

/-- What is known of an access. -/
inductive Verdict where
  /-- every possible index is valid for every possible size -/
  | inBounds
  /-- every possible index is invalid, or the policy counts it so -/
  | outOfBounds
  /-- neither -/
  | indeterminate
  deriving DecidableEq

namespace Verdict

/-- The verdict in words. -/
protected def toString : Verdict → String
  | .inBounds => "in-bounds"
  | .outOfBounds => "out-of-bounds"
  | .indeterminate => "indeterminate"

instance : ToString Verdict := ⟨Verdict.toString⟩

end Verdict

/-- What to make of an index interval that is partly valid and partly not. -/
inductive StraddlePolicy where
  /-- nothing is decided -/
  | indeterminate
  /-- it is out of bounds if some index is negative or too great for every size -/
  | reportMayOverflow
  deriving DecidableEq

namespace StraddlePolicy

/-- The name of the policy in settings. -/
def name : StraddlePolicy → String
  | .indeterminate => "indeterminate"
  | .reportMayOverflow => "report_may_overflow"

/-- The policy of this name. -/
def ofName? : String → Option StraddlePolicy
  | "indeterminate" => some .indeterminate
  | "report_may_overflow" => some .reportMayOverflow
  | _ => none

/-- The verdict on an index into a buffer of a size. -/
def classify (policy : StraddlePolicy) (size index : Interval) : Verdict :=
  match size.bounds?, index.bounds? with
  | some (sizeMin, sizeMax), some (indexMin, indexMax) =>
    let zero := Bound.finite 0
    if zero ≤ indexMin ∧ indexMax ≤ sizeMin.pred then .inBounds
    else if indexMax < zero ∨ sizeMax.pred < indexMin then .outOfBounds
    else
      match policy with
      | .indeterminate => .indeterminate
      | .reportMayOverflow =>
        if sizeMax.pred < indexMax ∨ indexMin < zero then .outOfBounds else .indeterminate
  | _, _ => .indeterminate

end StraddlePolicy

end BufferBounds
