import BufferBounds.Propagation.Descent
import BufferBounds.Proofs.BoundOrder
import Std.Data.ExtTreeSet.Lemmas

/-!
# Joins absorb

Joining a second time changes nothing: what came in once is covered from then on. This holds of
intervals, pointers, values and stores in any spelling. A store of which the variables that change
were widened covers what came in as well, since joining never leads back to a value that is
narrower than the widened one.
-/

namespace BufferBounds

namespace Interval

variable {i j : Interval} {lo hi lo' hi' : Bound}

theorem bounds?_of_between? (h : between? lo hi = some i) :
    i = .unknown ∨ i.bounds? = some (lo, hi) := by
  rw [between?.eq_def] at h
  split at h
  · cases h
  · split at h
    · rename_i heq
      subst heq
      cases lo with
      | negInf => exact Or.inl (Option.some.inj h).symm
      | finite w =>
        cases h
        exact Or.inr rfl
      | posInf => exact Or.inl (Option.some.inj h).symm
    · split at h
      · exact Or.inl (Option.some.inj h).symm
      · cases h
        exact Or.inr rfl

theorem join_self (i : Interval) : i.join i = i := by
  rw [join, if_pos rfl]

theorem join_unknown (i : Interval) : i.join unknown = unknown := by
  rw [join]
  split
  · assumption
  · split
    · rename_i h
      cases h
    · rfl

/-- What lies between some bounds covers what lies between narrower ones. -/
theorem join_between? (hj : j.bounds? = some (lo', hi')) (hlo : lo ≤ lo') (hhi : hi' ≤ hi) :
    ((between? lo hi).getD .unknown).join j = (between? lo hi).getD .unknown := by
  cases h : between? lo hi with
  | none => exact unknown_join j
  | some i =>
    rw [Option.getD_some]
    rcases bounds?_of_between? h with rfl | hi'
    · exact unknown_join j
    · rw [join]
      split
      · rfl
      · simp only [hi', hj, min_eq_left hlo, max_eq_left hhi, h, Option.getD_some]

theorem join_join_right (i j : Interval) : (i.join j).join j = i.join j := by
  rw [join.eq_def i j]
  split
  · rename_i heq
    rw [heq, join_self]
  · split
    · rename_i hi hj
      exact join_between? hj (min_le_right ..) (le_max_right ..)
    · exact unknown_join j

end Interval

namespace Pointer

theorem join_self (p : Pointer) : p.join p = p := by
  cases p with
  | untracked => rfl
  | buffer sites size =>
    have hsites : sites ∪ sites = sites := by
      refine Std.ExtTreeSet.ext_mem fun site => ?_
      rw [Std.ExtTreeSet.mem_union_iff, or_self_iff]
    rw [join, hsites, Interval.join_self]

theorem join_join_right (p q : Pointer) : (p.join q).join q = p.join q := by
  cases p with
  | untracked => rfl
  | buffer sites size =>
    cases q with
    | untracked => rfl
    | buffer sites' size' =>
      have hsites : sites ∪ sites' ∪ sites' = sites ∪ sites' := by
        refine Std.ExtTreeSet.ext_mem fun site => ?_
        rw [Std.ExtTreeSet.mem_union_iff, Std.ExtTreeSet.mem_union_iff, or_assoc, or_self_iff]
      simp only [join, hsites, Interval.join_join_right]

end Pointer

namespace Value

theorem join_self (x : Value) : x.join x = x := by
  cases x with
  | scalar i => exact congrArg scalar (Interval.join_self i)
  | pointer p => exact congrArg pointer (Pointer.join_self p)

theorem join_join_right (x y : Value) : (x.join y).join y = x.join y := by
  cases x with
  | scalar i =>
    cases y with
    | scalar j => exact congrArg scalar (Interval.join_join_right i j)
    | pointer q => rfl
  | pointer p =>
    cases y with
    | scalar j => exact top_join _
    | pointer q => exact congrArg pointer (Pointer.join_join_right p q)

/-- The number of a join is the join of the numbers, whether they are numbers at all or not. -/
theorem number_join (x y : Value) : (x.join y).number = x.number.join y.number := by
  cases x with
  | scalar i =>
    cases y with
    | scalar j => rfl
    | pointer q => exact (Interval.join_unknown i).symm
  | pointer p =>
    cases y with
    | scalar j => exact (Interval.unknown_join j).symm
    | pointer q => exact (Interval.join_self .unknown).symm

theorem widened_join_self (x : Value) : x.widened.join x = x.widened := by
  cases x with
  | scalar i => exact top_join _
  | pointer p => rfl

/-- A widened join covers what was joined. -/
theorem widened_join_join (x y : Value) :
    (x.join y).widened.join y = (x.join y).widened := by
  cases x with
  | scalar i =>
    cases y with
    | scalar j => exact top_join _
    | pointer q => rfl
  | pointer p =>
    cases y with
    | scalar j => exact top_join _
    | pointer q => rfl

end Value

namespace Store

theorem join_self (s : Store) : s.join s = s := by
  ext1 var
  rw [get?_join]
  cases s.get? var with
  | none => rfl
  | some x => exact congrArg some (Value.join_self x)

theorem join_join_right (s t : Store) : (s.join t).join t = s.join t := by
  ext1 var
  rw [get?_join, get?_join]
  cases s.get? var with
  | none =>
    cases t.get? var with
    | none => rfl
    | some y => exact congrArg some (Value.join_self y)
  | some x =>
    cases t.get? var with
    | none => rfl
    | some y => exact congrArg some (Value.join_join_right x y)

/-- Widening the variables that a join changes leaves a store that still covers what came in. -/
theorem widen_join_join (s t : Store) :
    ((s.join t).widen (s.changed (s.join t))).join t =
      (s.join t).widen (s.changed (s.join t)) := by
  ext1 var
  rw [get?_join, get?_widen]
  split
  · rw [get?_join]
    cases s.get? var with
    | none =>
      cases t.get? var with
      | none => rfl
      | some y => exact congrArg some (Value.widened_join_self y)
    | some x =>
      cases t.get? var with
      | none => rfl
      | some y => exact congrArg some (Value.widened_join_join x y)
  · rw [← get?_join, join_join_right]

end Store

end BufferBounds
