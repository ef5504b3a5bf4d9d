import BufferBounds.Proofs.KnownNumbers
import BufferBounds.Proofs.NormalForms
import BufferBounds.Proofs.Straddling

/-!
# Verdicts are exact

What a verdict tells of every index and every size is also what it takes to come to it. The ends of
a normal interval are known from its integers, so each test on ends that the classification makes is
a statement about the integers of the two intervals. Nothing more can be decided, except where no
size is positive: then every index is invalid, but an interval of indices that reaches over zero is
not told from one that straddles the end of a buffer.
-/

namespace BufferBounds

/-! ## Tests on ends -/

namespace Interval

variable {size : Interval} {n : Int}

/-- The last index of the smallest buffer is valid for every size, and so is each one below. -/
theorem Normal.atLeast_pred_low_iff (hsize : size.Normal) (hn : 0 ≤ n) :
    size.low.pred.AtLeast n ↔ ∀ s ∈ size, n < s := by
  constructor
  · intro h s hs
    exact Bound.lt_of_atLeast_pred h (mem_iff_ends.mp hs).1
  · intro h
    cases hlow : size.low with
    | negInf =>
      -- some size is negative then, and no index is less
      obtain ⟨s, hs, hneg⟩ := hsize.exists_mem_lt hlow 0
      exact absurd (h s hs) (by omega)
    | finite c =>
      have hlt := h c.toInt (hsize.low_mem hlow)
      exact Bound.AtLeast.pred (b := .finite c) (Int.le_refl _) hlt (Int.le_trans (by decide) hn)
    | posInf => exact absurd hlow hsize.low_ne_posInf

/-- An index is too great for every size exactly if it lies behind the last index of the greatest
buffer. -/
theorem Normal.atLeast_pred_high_iff (hsize : size.Normal) (hn : 0 ≤ n) :
    size.high.pred.AtLeast n ↔ ∃ s ∈ size, n < s := by
  constructor
  · intro h
    cases hhigh : size.high with
    | negInf => exact absurd hhigh hsize.high_ne_negInf
    | finite c =>
      rw [hhigh] at h
      exact ⟨c.toInt, hsize.high_mem hhigh,
        Bound.lt_of_atLeast_pred (b := .finite c) h (Int.le_refl _)⟩
    | posInf => exact hsize.exists_mem_gt hhigh n
  · rintro ⟨s, hs, hlt⟩
    exact (mem_iff_ends.mp hs).2.pred hlt (Int.le_trans (by decide) hn)

end Interval

/-! ## Verdicts -/

namespace StraddlePolicy

open BufferBounds.Interval

variable {policy : StraddlePolicy} {size index : Interval} {s : Int}

/-- The classification of a known size and a known index, by their ends. -/
theorem classify_of_ne_unknown (hsize : size ≠ .unknown) (hindex : index ≠ .unknown) :
    policy.classify size index =
      if .finite 0 ≤ index.low ∧ index.high ≤ size.low.pred then .inBounds
      else if index.high < .finite 0 ∨ size.high.pred < index.low then .outOfBounds
      else if policy = .reportMayOverflow ∧
          (size.high.pred < index.high ∨ index.low < .finite 0) then .outOfBounds
      else .indeterminate := by
  rw [classify]
  simp only [bounds?_eq_ends hsize, bounds?_eq_ends hindex]
  cases policy with
  | indeterminate => simp only [reduceCtorEq, false_and, if_false]
  | reportMayOverflow => simp only [true_and]

section Known

variable (hsize : size.Normal) (hindex : index.Normal) (hknown : size ≠ .unknown)
  (hknown' : index ≠ .unknown)

include hsize hindex hknown hknown'

theorem classify_eq_inBounds_iff :
    policy.classify size index = .inBounds ↔ ∀ i ∈ index, ∀ s ∈ size, 0 ≤ i ∧ i < s := by
  constructor
  · intro h i hi s hs
    exact lt_of_classify_inBounds h hs hi
  · intro h
    have hzero : ∀ i ∈ index, 0 ≤ i := by
      intro i hi
      obtain ⟨s, hs⟩ := hsize.exists_mem
      exact (h i hi s hs).1
    have hlow : .finite 0 ≤ index.low := hindex.le_low hzero
    have hhigh : index.high ≤ size.low.pred := hindex.high_le fun i hi =>
      (hsize.atLeast_pred_low_iff (hzero i hi)).mpr fun s hs => (h i hi s hs).2
    rw [classify_of_ne_unknown hknown hknown', if_pos ⟨hlow, hhigh⟩]

/-- Where all indices are invalid for all sizes this is found out, if some size is positive. -/
theorem classify_eq_outOfBounds_of_forall
    (hinvalid : ∀ i ∈ index, ∀ s ∈ size, i < 0 ∨ s ≤ i) (hs : s ∈ size) (hpos : 0 < s) :
    policy.classify size index = .outOfBounds := by
  have hin : ¬ (.finite 0 ≤ index.low ∧ index.high ≤ size.low.pred) := by
    intro hin
    have hverdict : policy.classify size index = .inBounds := by
      rw [classify_of_ne_unknown hknown hknown', if_pos hin]
    obtain ⟨i, hi⟩ := hindex.exists_mem
    have hvalid := lt_of_classify_inBounds hverdict hs hi
    have := hinvalid i hi s hs
    omega
  have hout : index.high < .finite 0 ∨ size.high.pred < index.low := by
    by_contra hout
    rw [not_or, not_lt, not_lt] at hout
    obtain ⟨hhigh, hlow⟩ := hout
    rcases le_total index.low (.finite 0) with hle | hle
    · -- zero is an index then, and valid for the positive size
      have := hinvalid 0 (mem_of_ends (w := 0) (bounds?_eq_ends hknown') hle hhigh) s hs
      omega
    · cases heq : index.low with
      | negInf =>
        rw [heq] at hle
        exact absurd hle (Bound.not_finite_le_negInf 0)
      | finite w =>
        -- the least index is valid for the greatest sizes
        rw [heq] at hle hlow
        have hw : 0 ≤ w.toInt := Bound.finite_le_finite.mp hle
        obtain ⟨t, ht, hlt⟩ :=
          (hsize.atLeast_pred_high_iff hw).mp (Bound.atLeast_toInt_iff.mpr hlow)
        have := hinvalid w.toInt (hindex.low_mem heq) t ht
        omega
      | posInf => exact absurd heq hindex.low_ne_posInf
  rw [classify_of_ne_unknown hknown hknown', if_neg hin, if_pos hout]

theorem reportMayOverflow_classify_eq_outOfBounds_iff :
    reportMayOverflow.classify size index = .outOfBounds ↔
      reportMayOverflow.classify size index ≠ .inBounds ∧
        ∃ i ∈ index, i < 0 ∨ ∀ s ∈ size, s ≤ i := by
  constructor
  · intro h
    refine ⟨by rw [h]; nofun, ?_⟩
    rcases classify_cases size hindex with heq | ⟨-, -, w, hw, hbad⟩
    · -- all indices are invalid then, so any of them will do
      rw [heq] at h
      obtain ⟨i, hi⟩ := hindex.exists_mem
      by_cases hneg : i < 0
      · exact ⟨i, hi, Or.inl hneg⟩
      · exact ⟨i, hi, Or.inr fun s hs =>
          (not_lt_of_classify_outOfBounds h hs hi).resolve_left hneg⟩
    · exact ⟨w.toInt, hw, hbad⟩
  · rintro ⟨hin, i, hi, hbad⟩
    obtain ⟨hlow, hhigh⟩ := mem_iff_ends.mp hi
    have hmay : size.high.pred < index.high ∨ index.low < .finite 0 := by
      by_contra hmay
      rw [not_or, not_lt, not_lt] at hmay
      have hzero : 0 ≤ i := hlow.of_le hmay.2
      obtain ⟨s, hs, hlt⟩ := (hsize.atLeast_pred_high_iff hzero).mp (hhigh.of_le hmay.1)
      rcases hbad with hneg | hgreat
      · omega
      · exact absurd (hgreat s hs) (Int.not_le.mpr hlt)
    rw [classify_of_ne_unknown hknown hknown'] at hin ⊢
    rw [if_neg fun hvalid => hin (if_pos hvalid)]
    split
    · rfl
    · exact if_pos ⟨rfl, hmay⟩

end Known

/-- **The classification decides exactly what the intervals prove.** Take a size and an index of
which something is known, both normal. The access is in bounds, under either policy, exactly if every
index is valid for every size. If the policy decides nothing about straddling intervals, the access
is out of bounds only if every index is invalid for every size, and it is if this is so and some size
is positive. If the policy reports what may overflow, the access is out of bounds exactly if it is not
in bounds and some index is negative or at least every size. Of an unknown size or index nothing is
decided. -/
theorem classify_exact (hsize : size.Normal) (hindex : index.Normal) :
    (size ≠ .unknown → index ≠ .unknown →
      (∀ policy : StraddlePolicy, policy.classify size index = .inBounds ↔
        ∀ i ∈ index, ∀ s ∈ size, 0 ≤ i ∧ i < s) ∧
      (indeterminate.classify size index = .outOfBounds →
        ∀ i ∈ index, ∀ s ∈ size, i < 0 ∨ s ≤ i) ∧
      ((∀ i ∈ index, ∀ s ∈ size, i < 0 ∨ s ≤ i) →
        (∃ s ∈ size, 0 < s) → indeterminate.classify size index = .outOfBounds) ∧
      (reportMayOverflow.classify size index = .outOfBounds ↔
        reportMayOverflow.classify size index ≠ .inBounds ∧
          ∃ i ∈ index, i < 0 ∨ ∀ s ∈ size, s ≤ i)) ∧
    (size = .unknown ∨ index = .unknown →
      ∀ policy : StraddlePolicy, policy.classify size index = .indeterminate) := by
  refine ⟨fun hknown hknown' => ⟨?inBounds, ?only, ?whenever, ?mayOverflow⟩, ?unknown⟩
  case inBounds =>
    intro policy
    exact classify_eq_inBounds_iff hsize hindex hknown hknown'
  case only =>
    intro h i hi s hs
    exact not_lt_of_classify_outOfBounds h hs hi
  case whenever =>
    rintro hinvalid ⟨s, hs, hpos⟩
    exact classify_eq_outOfBounds_of_forall hsize hindex hknown hknown' hinvalid hs hpos
  case mayOverflow =>
    exact reportMayOverflow_classify_eq_outOfBounds_iff hsize hindex hknown hknown'
  case unknown =>
    intro h policy
    by_contra hdecided
    obtain ⟨hne, hne'⟩ := known_of_classify_ne hdecided
    exact h.elim hne hne'

/-- The least word has no predecessor, and a buffer of at most this size has no index at all. -/
theorem classify_exact_minValue :
    let size := range .negInf (.finite Int64.minValue)
    let index := range (.finite Int64.minValue) .posInf
    (size.Normal ∧ index.Normal ∧ size ≠ .unknown ∧ index ≠ .unknown) ∧
      (indeterminate.classify size index = .outOfBounds ∧
        ∀ i ∈ index, ∀ s ∈ size, i < 0 ∨ s ≤ i) ∧
      reportMayOverflow.classify size index = .outOfBounds ∧
      ∃ i ∈ index, i < 0 ∨ ∀ s ∈ size, s ≤ i := by
  intro size index
  have hsize : size.Normal := ⟨by decide, by decide⟩
  have hindex : index.Normal := ⟨by decide, by decide⟩
  have hout : indeterminate.classify size index = .outOfBounds := by decide
  have hmay : reportMayOverflow.classify size index = .outOfBounds := by decide
  obtain ⟨-, honly, -, hiff⟩ := (classify_exact hsize hindex).1 nofun nofun
  exact ⟨⟨hsize, hindex, nofun, nofun⟩, ⟨hout, honly hout⟩, hmay, (hiff.mp hmay).2⟩

end StraddlePolicy

end BufferBounds
