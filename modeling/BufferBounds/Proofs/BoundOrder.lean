import BufferBounds.Bound
import Mathlib.Order.MinMax

/-!
# Bounds and integers

Bounds are linearly ordered. Where a bound stands among the integers is told by `AtMost` and
`AtLeast`; whatever is proved of the operations on bounds is proved through these two. An infinity
that an overflow leads to is on the right side of the exact result, so the statements on sums and
differences hold of all integers, not only of words.
-/

namespace BufferBounds

/-- The word nearest to an integer. -/
def saturate (n : Int) : Int64 :=
  (word? n).getD (if n < 0 then Int64.minValue else Int64.maxValue)

theorem minValue_toInt : Int64.minValue.toInt = -9223372036854775808 := by decide

theorem maxValue_toInt : Int64.maxValue.toInt = 9223372036854775807 := by decide

theorem saturate_toInt (w : Int64) : saturate w.toInt = w := by
  rw [saturate, word?_eq_some_iff.mpr rfl]
  rfl

/-- An integer is its nearest word, or lies outside of the words with the nearest at that end. -/
theorem saturate_cases (n : Int) :
    (saturate n).toInt = n ∨
      (n < Int64.minValue.toInt ∧ saturate n = Int64.minValue) ∨
      (Int64.maxValue.toInt < n ∧ saturate n = Int64.maxValue) := by
  cases h : word? n with
  | some w =>
    left
    rw [saturate, h]
    exact word?_eq_some_iff.mp h
  | none =>
    right
    rw [saturate, h, minValue_toInt, maxValue_toInt]
    rcases word?_eq_none_iff.mp h with hlt | hlt
    · rw [minValue_toInt] at hlt
      exact Or.inl ⟨hlt, if_pos (by omega)⟩
    · rw [maxValue_toInt] at hlt
      exact Or.inr ⟨hlt, if_neg (by omega)⟩

namespace Bound

/-! ## The order -/

@[simp] theorem negInf_le (b : Bound) : negInf ≤ b := by
  cases b <;> exact trivial

@[simp] theorem le_posInf (b : Bound) : b ≤ posInf := by
  cases b <;> exact trivial

@[simp] theorem finite_le_finite {v w : Int64} : finite v ≤ finite w ↔ v.toInt ≤ w.toInt :=
  Int64.le_iff_toInt_le

@[simp] theorem not_finite_le_negInf (w : Int64) : ¬ finite w ≤ negInf := id

@[simp] theorem not_posInf_le_finite (w : Int64) : ¬ posInf ≤ finite w := id

@[simp] theorem not_posInf_le_negInf : ¬ posInf ≤ negInf := id

protected theorem le_total (a b : Bound) : a ≤ b ∨ b ≤ a := by
  cases a <;> cases b <;> simp
  omega

protected theorem le_trans {a b c : Bound} (hab : a ≤ b) (hbc : b ≤ c) : a ≤ c := by
  cases a <;> cases b <;> cases c <;> simp_all
  omega

protected theorem le_antisymm {a b : Bound} (hab : a ≤ b) (hba : b ≤ a) : a = b := by
  cases a <;> cases b <;> simp_all
  exact Int64.toInt_inj.mp (by omega)

instance : LinearOrder Bound where
  le_refl b := (Bound.le_total b b).elim id id
  le_trans _ _ _ := Bound.le_trans
  le_antisymm _ _ := Bound.le_antisymm
  lt_iff_le_not_ge a b := by
    constructor
    · intro h
      exact ⟨(Bound.le_total a b).resolve_right h, h⟩
    · intro h
      exact h.2
  le_total := Bound.le_total
  toDecidableLE := inferInstance
  toDecidableLT := inferInstance
  toDecidableEq := inferInstance
  min_def _ _ := rfl
  max_def _ _ := rfl
  compare_eq_compareOfLessAndEq _ _ := rfl

/-! ## Places among the integers -/

/-- The bound lies at or below the integer. -/
def AtMost : Bound → Int → Prop
  | .negInf, _ => True
  | .finite w, n => w.toInt ≤ n
  | .posInf, _ => False

/-- The bound lies at or above the integer. -/
def AtLeast : Bound → Int → Prop
  | .negInf, _ => False
  | .finite w, n => n ≤ w.toInt
  | .posInf, _ => True

variable {a b c : Bound} {m n : Int}

theorem AtMost.of_le (h : b.AtMost n) (hab : a ≤ b) : a.AtMost n := by
  cases a <;> cases b <;> simp_all [AtMost]
  omega

theorem AtLeast.of_le (h : a.AtLeast n) (hab : a ≤ b) : b.AtLeast n := by
  cases a <;> cases b <;> simp_all [AtLeast]
  omega

theorem AtMost.mono (h : b.AtMost m) (hmn : m ≤ n) : b.AtMost n := by
  cases b with
  | negInf => exact trivial
  | finite w => exact Int.le_trans h hmn
  | posInf => exact h

theorem AtLeast.anti (h : b.AtLeast n) (hmn : m ≤ n) : b.AtLeast m := by
  cases b with
  | negInf => exact h
  | finite w => exact Int.le_trans hmn h
  | posInf => exact trivial

/-- A bound below an integer is below the bounds above it. -/
theorem AtMost.le (ha : a.AtMost n) (hb : b.AtLeast n) : a ≤ b := by
  cases a <;> cases b <;> simp_all [AtMost, AtLeast]
  omega

theorem atMost_min : (min a b).AtMost n ↔ a.AtMost n ∨ b.AtMost n := by
  constructor
  · intro h
    rcases min_choice a b with heq | heq
    · exact Or.inl (heq ▸ h)
    · exact Or.inr (heq ▸ h)
  · rintro (h | h)
    · exact h.of_le (min_le_left a b)
    · exact h.of_le (min_le_right a b)

theorem atLeast_max : (max a b).AtLeast n ↔ a.AtLeast n ∨ b.AtLeast n := by
  constructor
  · intro h
    rcases max_choice a b with heq | heq
    · exact Or.inl (heq ▸ h)
    · exact Or.inr (heq ▸ h)
  · rintro (h | h)
    · exact h.of_le (le_max_left a b)
    · exact h.of_le (le_max_right a b)

theorem atMost_max : (max a b).AtMost n ↔ a.AtMost n ∧ b.AtMost n := by
  constructor
  · intro h
    exact ⟨h.of_le (le_max_left a b), h.of_le (le_max_right a b)⟩
  · rintro ⟨ha, hb⟩
    rcases max_choice a b with heq | heq
    · rwa [heq]
    · rwa [heq]

theorem atLeast_min : (min a b).AtLeast n ↔ a.AtLeast n ∧ b.AtLeast n := by
  constructor
  · intro h
    exact ⟨h.of_le (min_le_left a b), h.of_le (min_le_right a b)⟩
  · rintro ⟨ha, hb⟩
    rcases min_choice a b with heq | heq
    · rwa [heq]
    · rwa [heq]

theorem AtMost.saturate (h : b.AtMost n) : b.AtMost (saturate n).toInt := by
  rcases saturate_cases n with heq | ⟨hn, -⟩ | ⟨-, heq⟩
  · rwa [heq]
  · cases b with
    | negInf => exact trivial
    | finite w => exact absurd (Int64.minValue_le_toInt w) (by simp only [AtMost] at h; omega)
    | posInf => exact h
  · cases b with
    | negInf => exact trivial
    | finite w =>
      rw [heq]
      exact Int64.toInt_le w
    | posInf => exact h

theorem AtLeast.saturate (h : b.AtLeast n) : b.AtLeast (saturate n).toInt := by
  rcases saturate_cases n with heq | ⟨-, heq⟩ | ⟨hn, -⟩
  · rwa [heq]
  · cases b with
    | negInf => exact h
    | finite w =>
      rw [heq]
      exact Int64.minValue_le_toInt w
    | posInf => exact trivial
  · cases b with
    | negInf => exact h
    | finite w => exact absurd (Int64.toInt_le w) (by simp only [AtLeast] at h; omega)
    | posInf => exact trivial

/-! ## Predecessors -/

/-- What is at most the predecessor of a bound is less than what is at least the bound. -/
theorem lt_of_atLeast_pred (hm : b.pred.AtLeast m) (hn : b.AtMost n) : m < n := by
  cases b with
  | negInf => exact hm.elim
  | finite w =>
    cases h : word? (w.toInt - 1) with
    | some v =>
      have := word?_eq_some_iff.mp h
      simp only [pred, h, AtLeast, AtMost] at hm hn
      omega
    | none =>
      -- below the least word there is nothing
      simp only [pred, h, AtLeast] at hm
  | posInf => exact hn.elim

/-- Only the least word has no predecessor among the words, so what is less than something that is
at most another bound is at most the predecessor. -/
theorem AtLeast.pred_of_ne (hn : b.AtLeast n) (hm : m < n) (hne : b ≠ finite Int64.minValue) :
    b.pred.AtLeast m := by
  cases b with
  | negInf => exact hn
  | finite w =>
    simp only [AtLeast] at hn
    cases h : word? (w.toInt - 1) with
    | some v =>
      have := word?_eq_some_iff.mp h
      simp only [Bound.pred, h, AtLeast]
      omega
    | none =>
      have := word?_eq_none_iff.mp h
      have := Int64.minValue_le_toInt w
      have := Int64.toInt_le w
      have hw : w = Int64.minValue := Int64.toInt_inj.mp (by omega)
      exact absurd (congrArg finite hw) hne
  | posInf => exact trivial

/-- A word less than what is at most a bound is at most the predecessor. -/
theorem AtLeast.pred (hn : b.AtLeast n) (hm : m < n) (hword : Int64.minValue.toInt ≤ m) :
    b.pred.AtLeast m := by
  refine hn.pred_of_ne hm ?_
  rintro rfl
  simp only [AtLeast] at hn
  omega

/-- Only the greatest word has no successor among the words, so what is greater than something that
is at least another bound is at least the successor. -/
theorem AtMost.add?_one_of_ne (hm : b.AtMost m) (h : m < n) (hne : b ≠ finite Int64.maxValue) :
    ∃ c, b.add? (finite 1) = some c ∧ c.AtMost n := by
  cases b with
  | negInf => exact ⟨negInf, rfl, trivial⟩
  | finite w =>
    have hone : (1 : Int64).toInt = 1 := rfl
    simp only [AtMost] at hm
    cases hsum : word? (w.toInt + (1 : Int64).toInt) with
    | some v =>
      have := word?_eq_some_iff.mp hsum
      refine ⟨finite v, by simp only [Bound.add?, hsum], ?_⟩
      simp only [AtMost]
      omega
    | none =>
      have := word?_eq_none_iff.mp hsum
      have := Int64.minValue_le_toInt w
      have := Int64.toInt_le w
      have hw : w = Int64.maxValue := Int64.toInt_inj.mp (by omega)
      exact absurd (congrArg finite hw) hne
  | posInf => exact hm.elim

/-! ## Sums and differences

A lower end that overflows to `+∞` is replaced by the greatest word, an upper end that overflows to
`-∞` by the least one. -/

/-- The lower end of an interval whose computed lower end is `b`. -/
def pinLow (b : Bound) : Bound := if b = .posInf then .finite Int64.maxValue else b

/-- The upper end of an interval whose computed upper end is `b`. -/
def pinHigh (b : Bound) : Bound := if b = .negInf then .finite Int64.minValue else b

theorem AtMost.pinLow (h : b.AtMost n) : b.pinLow.AtMost n := by
  cases b with
  | negInf => exact trivial
  | finite w => exact h
  | posInf => exact h.elim

theorem AtLeast.pinHigh (h : b.AtLeast n) : b.pinHigh.AtLeast n := by
  cases b with
  | negInf => exact h.elim
  | finite w => exact h
  | posInf => exact trivial

/-- The sum of two lower ends is a lower end of the sum. -/
theorem AtMost.add? (ha : a.AtMost m) (hb : b.AtMost n) :
    ∃ c, a.add? b = some c ∧ c.pinLow.AtMost (m + n) := by
  cases a with
  | negInf =>
    cases b with
    | negInf => exact ⟨_, rfl, trivial⟩
    | finite w => exact ⟨_, rfl, trivial⟩
    | posInf => exact hb.elim
  | finite v =>
    cases b with
    | negInf => exact ⟨_, rfl, trivial⟩
    | finite w =>
      simp only [AtMost] at ha hb
      cases h : word? (v.toInt + w.toInt) with
      | some sum =>
        have := word?_eq_some_iff.mp h
        refine ⟨.finite sum, by simp only [Bound.add?, h], AtMost.pinLow ?_⟩
        simp only [AtMost]
        omega
      | none =>
        -- the sum leaves the words on the side of `v`, and `+∞` stands for the greatest word here
        refine ⟨if 0 < v then posInf else negInf, by simp only [Bound.add?, h], ?_⟩
        have hnone := word?_eq_none_iff.mp h
        have := Int64.minValue_le_toInt w
        split
        · rename_i hpos
          have := Int64.lt_iff_toInt_lt.mp hpos
          rw [Int64.toInt_zero] at this
          change Int64.maxValue.toInt ≤ m + n
          omega
        · exact trivial
    | posInf => exact hb.elim
  | posInf => exact ha.elim

/-- The sum of two upper ends is an upper end of the sum. -/
theorem AtLeast.add? (ha : a.AtLeast m) (hb : b.AtLeast n) :
    ∃ c, a.add? b = some c ∧ c.pinHigh.AtLeast (m + n) := by
  cases a with
  | negInf => exact ha.elim
  | finite v =>
    cases b with
    | negInf => exact hb.elim
    | finite w =>
      simp only [AtLeast] at ha hb
      cases h : word? (v.toInt + w.toInt) with
      | some sum =>
        have := word?_eq_some_iff.mp h
        refine ⟨.finite sum, by simp only [Bound.add?, h], AtLeast.pinHigh ?_⟩
        simp only [AtLeast]
        omega
      | none =>
        -- the sum leaves the words on the side of `v`, and `-∞` stands for the least word here
        refine ⟨if 0 < v then posInf else negInf, by simp only [Bound.add?, h], ?_⟩
        have hnone := word?_eq_none_iff.mp h
        have := Int64.toInt_le w
        split
        · exact trivial
        · rename_i hpos
          have : ¬ 0 < v.toInt := by
            intro h0
            exact hpos (Int64.lt_iff_toInt_lt.mpr (by rwa [Int64.toInt_zero]))
          change m + n ≤ Int64.minValue.toInt
          omega
    | posInf => exact ⟨_, rfl, trivial⟩
  | posInf =>
    cases b with
    | negInf => exact hb.elim
    | finite w => exact ⟨_, rfl, trivial⟩
    | posInf => exact ⟨_, rfl, trivial⟩

/-- The only word without an opposite is the least one. -/
theorem eq_minValue_of_word?_neg {w : Int64} (h : word? (-w.toInt) = none) :
    w.toInt = Int64.minValue.toInt := by
  have := word?_eq_none_iff.mp h
  have := Int64.minValue_le_toInt w
  have := Int64.toInt_le w
  rw [minValue_toInt, maxValue_toInt] at *
  omega

/-- The difference of a lower and an upper end is a lower end of the difference. -/
theorem AtMost.sub? (ha : a.AtMost m) (hb : b.AtLeast n) :
    ∃ c, a.sub? b = some c ∧ c.pinLow.AtMost (m - n) := by
  rw [Int.sub_eq_add_neg]
  cases b with
  | negInf => exact hb.elim
  | finite w =>
    simp only [AtLeast] at hb
    cases h : word? (-w.toInt) with
    | some opposite =>
      have hopposite := word?_eq_some_iff.mp h
      have hlow : (finite opposite).AtMost (-n) := by
        simp only [AtMost]
        omega
      obtain ⟨c, hc, hcn⟩ := ha.add? hlow
      exact ⟨c, by simp only [Bound.sub?, h, hc], hcn⟩
    | none =>
      -- one word more than the greatest is added, in two sums
      have hw := eq_minValue_of_word?_neg h
      rw [minValue_toInt] at hw
      obtain ⟨c, hc, hcm⟩ := ha.add? (b := finite Int64.maxValue) (Int.le_refl _)
      rw [maxValue_toInt] at hcm
      cases c with
      | negInf => exact ⟨negInf, by simp only [Bound.sub?, h, hc]; rfl, trivial⟩
      | finite v =>
        obtain ⟨d, hd, hdm⟩ := AtMost.add? (a := finite v) hcm
          (show (finite 1).AtMost 1 from Int.le_refl _)
        exact ⟨d, by simp only [Bound.sub?, h, hc]; exact hd, hdm.mono (by omega)⟩
      | posInf =>
        refine ⟨posInf, by simp only [Bound.sub?, h, hc]; rfl, ?_⟩
        change Int64.maxValue.toInt ≤ m + 9223372036854775807 at hcm
        change Int64.maxValue.toInt ≤ m + -n
        omega
  | posInf => exact ha.add? (b := negInf) trivial

/-- Adding the greatest word to a word does not lead below the words. -/
theorem AtLeast.add?_maxValue_ne_negInf (ha : a.AtLeast m) :
    a.add? (finite Int64.maxValue) ≠ some negInf := by
  intro h
  cases a with
  | negInf => exact ha.elim
  | finite v =>
    have hv := Int64.minValue_le_toInt v
    simp only [Bound.add?] at h
    split at h
    · cases h
    · rename_i hnone
      have hnone := word?_eq_none_iff.mp hnone
      rw [minValue_toInt, maxValue_toInt] at hnone
      rw [minValue_toInt] at hv
      have hpos : 0 < v := by
        rw [Int64.lt_iff_toInt_lt, Int64.toInt_zero]
        omega
      rw [if_pos hpos] at h
      cases h
  | posInf => cases h

/-- The difference of an upper and a lower end is an upper end of the difference. -/
theorem AtLeast.sub? (ha : a.AtLeast m) (hb : b.AtMost n) :
    ∃ c, a.sub? b = some c ∧ c.pinHigh.AtLeast (m - n) := by
  rw [Int.sub_eq_add_neg]
  cases b with
  | negInf => exact ha.add? (b := posInf) trivial
  | finite w =>
    simp only [AtMost] at hb
    cases h : word? (-w.toInt) with
    | some opposite =>
      have hopposite := word?_eq_some_iff.mp h
      have hhigh : (finite opposite).AtLeast (-n) := by
        simp only [AtLeast]
        omega
      obtain ⟨c, hc, hcn⟩ := ha.add? hhigh
      exact ⟨c, by simp only [Bound.sub?, h, hc], hcn⟩
    | none =>
      have hw := eq_minValue_of_word?_neg h
      rw [minValue_toInt] at hw
      obtain ⟨c, hc, hcm⟩ := ha.add? (b := finite Int64.maxValue) (Int.le_refl _)
      rw [maxValue_toInt] at hcm
      cases c with
      | negInf => exact absurd hc (ha.add?_maxValue_ne_negInf)
      | finite v =>
        obtain ⟨d, hd, hdm⟩ := AtLeast.add? (a := finite v) hcm
          (show (finite 1).AtLeast 1 from Int.le_refl _)
        exact ⟨d, by simp only [Bound.sub?, h, hc]; exact hd, hdm.anti (by omega)⟩
      | posInf => exact ⟨posInf, by simp only [Bound.sub?, h, hc]; rfl, trivial⟩
  | posInf => exact hb.elim

end Bound

end BufferBounds
