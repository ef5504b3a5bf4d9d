import BufferBounds.Proofs.Joins
import BufferBounds.Proofs.Membership
import BufferBounds.Proofs.Normality

/-!
# The order of joins

Of normal values joins are commutative and associative, so what several stores have in common does
not depend on the order in which they are joined. This needs the normal form: an interval with its
ends in the wrong order would be forgotten or not, depending on what it meets first.

A normal interval is given by its two ends, where an unknown one has the infinities as ends, and
joining takes the least and the greatest end.
-/

namespace BufferBounds

/-! ## Intervals -/

namespace Interval

/-- The lower end. -/
def low : Interval → Bound
  | .constant n => .finite n
  | .range lo _ => lo
  | .unknown => .negInf

/-- The upper end. -/
def high : Interval → Bound
  | .constant n => .finite n
  | .range _ hi => hi
  | .unknown => .posInf

variable {i j k : Interval} {lo hi : Bound}

theorem ends_of_bounds? (h : i.bounds? = some (lo, hi)) : i.low = lo ∧ i.high = hi := by
  cases i <;> cases h <;> exact ⟨rfl, rfl⟩

theorem bounds?_eq_ends (h : i ≠ .unknown) : i.bounds? = some (i.low, i.high) := by
  cases i with
  | constant n => rfl
  | range lo hi => rfl
  | unknown => exact absurd rfl h

theorem Normal.low_le_high (h : i.Normal) : i.low ≤ i.high := by
  cases i with
  | constant n => exact le_refl _
  | range lo hi => exact h.1.le
  | unknown => exact Bound.negInf_le _

theorem Normal.low_ne_posInf (h : i.Normal) : i.low ≠ .posInf := by
  cases i with
  | constant n => nofun
  | range lo hi => exact (lt_of_lt_of_le h.1 (Bound.le_posInf hi)).ne
  | unknown => nofun

theorem Normal.high_ne_negInf (h : i.Normal) : i.high ≠ .negInf := by
  cases i with
  | constant n => nofun
  | range lo hi => exact (lt_of_le_of_lt (Bound.negInf_le lo) h.1).ne'
  | unknown => nofun

/-- A normal interval is known by its ends. -/
theorem Normal.ext (hi : i.Normal) (hj : j.Normal) (hlow : i.low = j.low)
    (hhigh : i.high = j.high) : i = j := by
  cases i with
  | constant m =>
    cases j with
    | constant n => exact congrArg constant (Bound.finite.inj hlow)
    | range lo' hi' =>
      obtain rfl : Bound.finite m = lo' := hlow
      obtain rfl : Bound.finite m = hi' := hhigh
      exact absurd hj.1 (lt_irrefl _)
    | unknown => cases hlow
  | range lo hi' =>
    cases j with
    | constant n =>
      obtain rfl : lo = Bound.finite n := hlow
      obtain rfl : hi' = Bound.finite n := hhigh
      exact absurd hi.1 (lt_irrefl _)
    | range lo' hi'' =>
      obtain rfl : lo = lo' := hlow
      obtain rfl : hi' = hi'' := hhigh
      rfl
    | unknown => exact absurd ⟨hlow, hhigh⟩ hi.2
  | unknown =>
    cases j with
    | constant n => cases hlow
    | range lo' hi' => exact absurd ⟨hlow.symm, hhigh.symm⟩ hj.2
    | unknown => rfl

/-- Between two ends in the right order lies the interval with these ends. -/
theorem ends_between?_getD (hle : lo ≤ hi) (hlo : lo ≠ .posInf) (hhi : hi ≠ .negInf) :
    ((between? lo hi).getD .unknown).low = lo ∧ ((between? lo hi).getD .unknown).high = hi := by
  rw [between?.eq_def, if_neg (not_lt.mpr hle)]
  split
  · rename_i heq
    subst heq
    cases lo with
    | negInf => exact absurd rfl hhi
    | finite n => exact ⟨rfl, rfl⟩
    | posInf => exact absurd rfl hlo
  · split
    · rename_i hall
      rw [hall.1, hall.2]
      exact ⟨rfl, rfl⟩
    · exact ⟨rfl, rfl⟩

/-- Joining takes the least lower and the greatest upper end. -/
theorem ends_join (hi : i.Normal) (hj : j.Normal) :
    (i.join j).low = min i.low j.low ∧ (i.join j).high = max i.high j.high := by
  have hle : min i.low j.low ≤ max i.high j.high :=
    (min_le_left ..).trans (hi.low_le_high.trans (le_max_left ..))
  have hlow : min i.low j.low ≠ .posInf := by
    rcases min_choice i.low j.low with h | h
    · rw [h]
      exact hi.low_ne_posInf
    · rw [h]
      exact hj.low_ne_posInf
  have hhigh : max i.high j.high ≠ .negInf := by
    rcases max_choice i.high j.high with h | h
    · rw [h]
      exact hi.high_ne_negInf
    · rw [h]
      exact hj.high_ne_negInf
  rw [join]
  split
  · rename_i heq
    rw [heq, min_self, max_self]
    exact ⟨rfl, rfl⟩
  · split
    · rename_i hbi hbj
      obtain ⟨rfl, rfl⟩ := ends_of_bounds? hbi
      obtain ⟨rfl, rfl⟩ := ends_of_bounds? hbj
      exact ends_between?_getD hle hlow hhigh
    · rename_i hnone
      -- one of the two is unknown, and its ends are the outermost ones
      cases hbi : i.bounds? with
      | none =>
        rw [bounds?_eq_none_iff.mp hbi]
        exact ⟨(min_eq_left (Bound.negInf_le _)).symm, (max_eq_left (Bound.le_posInf _)).symm⟩
      | some ends =>
        cases hbj : j.bounds? with
        | none =>
          rw [bounds?_eq_none_iff.mp hbj]
          exact ⟨(min_eq_right (Bound.negInf_le _)).symm, (max_eq_right (Bound.le_posInf _)).symm⟩
        | some ends' => exact (hnone _ _ _ _ hbi hbj).elim

theorem join_comm (hi : i.Normal) (hj : j.Normal) : i.join j = j.join i := by
  obtain ⟨hlow, hhigh⟩ := ends_join hi hj
  obtain ⟨hlow', hhigh'⟩ := ends_join hj hi
  refine (hi.join j).ext (hj.join i) ?_ ?_
  · rw [hlow, hlow', min_comm]
  · rw [hhigh, hhigh', max_comm]

theorem join_assoc (hi : i.Normal) (hj : j.Normal) (hk : k.Normal) :
    (i.join j).join k = i.join (j.join k) := by
  obtain ⟨hlow, hhigh⟩ := ends_join (hi.join j) hk
  obtain ⟨hlow', hhigh'⟩ := ends_join hi (hj.join k)
  refine ((hi.join j).join k).ext (hi.join (j.join k)) ?_ ?_
  · rw [hlow, hlow', (ends_join hi hj).1, (ends_join hj hk).1, min_assoc]
  · rw [hhigh, hhigh', (ends_join hi hj).2, (ends_join hj hk).2, max_assoc]

end Interval

/-! ## Pointers and values -/

namespace Pointer

variable {p q r : Pointer}

theorem join_comm (hp : p.Normal) (hq : q.Normal) : p.join q = q.join p := by
  cases p with
  | untracked => cases q <;> rfl
  | buffer sites size =>
    cases q with
    | untracked => rfl
    | buffer sites' size' =>
      have hsites : sites ∪ sites' = sites' ∪ sites := by
        refine Std.ExtTreeSet.ext_mem fun site => ?_
        rw [Std.ExtTreeSet.mem_union_iff, Std.ExtTreeSet.mem_union_iff, or_comm]
      rw [join, join, hsites, Interval.join_comm hp hq]

theorem join_assoc (hp : p.Normal) (hq : q.Normal) (hr : r.Normal) :
    (p.join q).join r = p.join (q.join r) := by
  cases p with
  | untracked => cases q <;> cases r <;> rfl
  | buffer sites size =>
    cases q with
    | untracked => cases r <;> rfl
    | buffer sites' size' =>
      cases r with
      | untracked => rfl
      | buffer sites'' size'' =>
        have hsites : sites ∪ sites' ∪ sites'' = sites ∪ (sites' ∪ sites'') := by
          refine Std.ExtTreeSet.ext_mem fun site => ?_
          simp only [Std.ExtTreeSet.mem_union_iff, or_assoc]
        simp only [join, hsites, Interval.join_assoc hp hq hr]

end Pointer

namespace Value

variable {x y z : Value}

theorem join_comm (hx : x.Normal) (hy : y.Normal) : x.join y = y.join x := by
  cases x with
  | scalar i =>
    cases y with
    | scalar j => exact congrArg scalar (Interval.join_comm hx hy)
    | pointer q => rfl
  | pointer p =>
    cases y with
    | scalar j => rfl
    | pointer q => exact congrArg pointer (Pointer.join_comm hx hy)

/-- Once a number and a pointer have met nothing is known. -/
theorem join_top (x : Value) : x.join top = top := by
  cases x with
  | scalar i => exact congrArg scalar (Interval.join_unknown i)
  | pointer p => rfl

theorem join_assoc (hx : x.Normal) (hy : y.Normal) (hz : z.Normal) :
    (x.join y).join z = x.join (y.join z) := by
  cases x with
  | scalar i =>
    cases y with
    | scalar j =>
      cases z with
      | scalar k => exact congrArg scalar (Interval.join_assoc hx hy hz)
      | pointer r => exact (join_top _).symm
    | pointer q =>
      cases z with
      | scalar k => exact (top_join _).trans (join_top _).symm
      | pointer r => exact top_join _
  | pointer p =>
    cases y with
    | scalar j =>
      cases z with
      | scalar k => exact top_join _
      | pointer r => exact (top_join _).trans (join_top _).symm
    | pointer q =>
      cases z with
      | scalar k => exact (join_top _).symm
      | pointer r => exact congrArg pointer (Pointer.join_assoc hx hy hz)

end Value

/-! ## Stores -/

namespace Store

variable {s t u : Store}

theorem join_comm (hs : s.Normal) (ht : t.Normal) : s.join t = t.join s := by
  ext1 var
  rw [get?_join, get?_join]
  cases hx : s.get? var with
  | none => cases t.get? var <;> rfl
  | some x =>
    cases hy : t.get? var with
    | none => rfl
    | some y => exact congrArg some (Value.join_comm (hs var x hx) (ht var y hy))

theorem join_assoc (hs : s.Normal) (ht : t.Normal) (hu : u.Normal) :
    (s.join t).join u = s.join (t.join u) := by
  ext1 var
  rw [get?_join, get?_join, get?_join, get?_join]
  cases hx : s.get? var with
  | none => rfl
  | some x =>
    cases hy : t.get? var with
    | none => rfl
    | some y =>
      cases hz : u.get? var with
      | none => rfl
      | some z =>
        exact congrArg some (Value.join_assoc (hs var x hx) (ht var y hy) (hu var z hz))

/-- Two stores may be joined to a third in either order. -/
theorem join_right_comm (hs : s.Normal) (ht : t.Normal) (hu : u.Normal) :
    (s.join t).join u = (s.join u).join t := by
  rw [join_assoc hs ht hu, join_comm ht hu, ← join_assoc hs hu ht]

theorem foldl_join_perm {ss ts : List Store} (h : ss.Perm ts) (hss : ∀ u ∈ ss, u.Normal)
    (hs : s.Normal) : ss.foldl join s = ts.foldl join s := by
  induction h generalizing s with
  | nil => rfl
  | cons t h ih =>
    exact ih (fun u hu => hss u (List.mem_cons_of_mem _ hu))
      (hs.join (hss t (List.mem_cons_self ..)))
  | swap t u ss =>
    rw [List.foldl_cons, List.foldl_cons, List.foldl_cons, List.foldl_cons,
      join_right_comm hs (hss u (by simp)) (hss t (by simp))]
  | trans h h' ih ih' => exact (ih hss hs).trans (ih' (fun u hu => hss u (h.mem_iff.mpr hu)) hs)

/-- The join of some stores does not depend on their order. -/
theorem joinAll?_perm {ss ts : List Store} (h : ss.Perm ts) (hss : ∀ u ∈ ss, u.Normal) :
    joinAll? ss = joinAll? ts := by
  induction h with
  | nil => rfl
  | @cons t ss ts h ih =>
    exact congrArg some (foldl_join_perm h (fun u hu => hss u (List.mem_cons_of_mem _ hu))
      (hss t (List.mem_cons_self ..)))
  | swap t u ss =>
    -- the store that all others are joined to is another one, so here the join itself is turned
    rw [joinAll?, joinAll?, List.foldl_cons, List.foldl_cons,
      join_comm (hss u (by simp)) (hss t (by simp))]
  | trans h h' ih ih' => exact (ih hss).trans (ih' fun u hu => hss u (h.mem_iff.mpr hu))

end Store

end BufferBounds
