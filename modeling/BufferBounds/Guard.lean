import BufferBounds.Function
import BufferBounds.Store

/-!
# Guards

What a store becomes where a comparison of one of its variables is known to hold. Only numbers
that something is known of become better known; a comparison that cannot hold leaves no store.
-/

namespace BufferBounds

namespace Interval

/-- The values that compare as told with some value between `lo` and `hi`: `none` if there are
none. `value` is the interval that has these bounds. A comparison for being different restricts
nothing. -/
def comparable? (op : Comparison) (value : Interval) (lo hi : Bound) : Option Interval :=
  match op with
  | .lt => if hi.pred = .negInf then none else between? .negInf hi.pred
  | .le => between? .negInf hi
  | .gt =>
    let next := (lo.add? (.finite 1)).getD lo
    if next = .posInf then none else between? next .posInf
  | .ge => between? lo .posInf
  | .eq => some value
  | .neq => some .unknown

end Interval

namespace Store

/-- The store in which `var` compares as told with a value of `value`, if there is one.

That two values are different restricts an interval only if both are the same single word, and
then leaves nothing. -/
def assume? (s : Store) (var : String) (op : Comparison) (value : Interval) : Option Store :=
  match s.get? var, value.bounds? with
  | some (.scalar current), some (lo, hi) =>
    if current.isUnknown then some s
    else if op = .neq then
      if current.isConstant ∧ current.constant? = value.constant? then none else some s
    else do
      let allowed ← Interval.comparable? op value lo hi
      let narrowed ← current.meet? allowed
      return s.bind var (.scalar narrowed)
  | _, _ => some s

/-- What is left is the store as it is, or with a better known number in the variable. -/
theorem eq_or_eq_bind_of_assume? {s t : Store} {var : String} {op : Comparison} {value : Interval}
    (h : s.assume? var op value = some t) :
    t = s ∨ ∃ current allowed narrowed, s.get? var = some (.scalar current) ∧
      current.meet? allowed = some narrowed ∧ t = s.bind var (.scalar narrowed) := by
  rw [assume?] at h
  split at h
  · rename_i current lo hi hget hbounds
    split at h
    · exact Or.inl (Option.some.inj h).symm
    · split at h
      · split at h
        · cases h
        · exact Or.inl (Option.some.inj h).symm
      · obtain ⟨allowed, -, h⟩ := Option.bind_eq_some_iff.mp h
        obtain ⟨narrowed, hnarrowed, h⟩ := Option.bind_eq_some_iff.mp h
        exact Or.inr ⟨current, allowed, narrowed, hget, hnarrowed, (Option.some.inj h).symm⟩
  · exact Or.inl (Option.some.inj h).symm

end Store

end BufferBounds
