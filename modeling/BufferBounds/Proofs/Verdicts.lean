import BufferBounds.Proofs.Membership
import BufferBounds.Verdict

/-!
# What a verdict tells

A verdict on two intervals is a statement about every index and every size in them. Here it is
proved for one index and one size: they lie in the intervals, so what was decided holds of them.
-/

namespace BufferBounds

namespace StraddlePolicy

variable {policy : StraddlePolicy} {size index : Interval} {s n : Int}

/-- Nothing is decided about an unknown size or index. -/
theorem known_of_classify_ne (h : policy.classify size index ≠ .indeterminate) :
    size ≠ .unknown ∧ index ≠ .unknown := by
  constructor
  · rintro rfl
    exact h rfl
  · rintro rfl
    cases size <;> exact h rfl

/-- An index that is in bounds is an index of the buffer. -/
theorem lt_of_classify_inBounds (h : policy.classify size index = .inBounds) (hs : s ∈ size)
    (hn : n ∈ index) : 0 ≤ n ∧ n < s := by
  rw [classify] at h
  split at h
  · rename_i sizeMin sizeMax indexMin indexMax hsize hindex
    rw [Interval.mem_iff_of_bounds? hsize] at hs
    rw [Interval.mem_iff_of_bounds? hindex] at hn
    simp only at h
    split at h
    · rename_i hin
      have hzero : (Bound.finite 0).AtMost n := hn.1.of_le hin.1
      exact ⟨hzero, Bound.lt_of_atLeast_pred (hn.2.of_le hin.2) hs.1⟩
    · split at h
      · cases h
      · cases policy with
        | indeterminate => cases h
        | reportMayOverflow =>
          simp only at h
          split at h
          · cases h
          · cases h
  · cases h

/-- An index that is out of bounds, unless it is only counted so, is no index of the buffer. -/
theorem not_lt_of_classify_outOfBounds (h : indeterminate.classify size index = .outOfBounds)
    (hs : s ∈ size) (hn : n ∈ index) : n < 0 ∨ s ≤ n := by
  rw [classify] at h
  split at h
  · rename_i sizeMin sizeMax indexMin indexMax hsize hindex
    rw [Interval.mem_iff_of_bounds? hsize] at hs
    rw [Interval.mem_iff_of_bounds? hindex] at hn
    simp only at h
    split at h
    · cases h
    · split at h
      · rename_i hout
        -- an index of the buffer would lie between bounds that are in the wrong order
        by_contra hin
        rw [not_or, not_lt, not_le] at hin
        rcases hout with hlt | hlt
        · have hzero : (Bound.finite 0).AtMost n := hin.1
          exact absurd (hzero.le hn.2) (not_le.mpr hlt)
        · have hpred := hs.2.pred hin.2 (Int.le_trans (by decide) hin.1)
          exact absurd (hn.1.le hpred) (not_le.mpr hlt)
      · cases h
  · cases h

end StraddlePolicy

end BufferBounds
