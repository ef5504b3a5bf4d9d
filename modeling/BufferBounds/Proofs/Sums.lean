import BufferBounds.Proofs.KnownNumbers
import BufferBounds.Proofs.NormalForms

/-!
# Sums and differences are the smallest

The sum of two normal intervals is the smallest normal interval that holds every sum of their
integers, and so it is with differences. For if a word bounds the sums, then each operand has a
finite end on that side, which is one of its integers; and the bound of the sum of these two, once
it is pinned, is the best that a normal interval can have there.
-/

namespace BufferBounds

/-! ## Bounds of integers -/

namespace Bound

variable {d : Bound} {n : Int}

/-- Of the ends that a lower end may be, the pinned bound of an integer is the greatest below it. -/
theorem AtMost.le_pinLow_ofInt (h : d.AtMost n) : d ≤ (ofInt n).pinLow := by
  cases hword : word? n with
  | some w =>
    rw [← word?_eq_some_iff.mp hword] at h
    rw [ofInt_of_word? hword]
    exact atMost_toInt_iff.mp h
  | none =>
    rcases word?_eq_none_iff.mp hword with hlt | hlt
    · cases d with
      | negInf => exact negInf_le _
      | finite v =>
        exact absurd (Int64.minValue_le_toInt v) (Int.not_le.mpr (Int.lt_of_le_of_lt h hlt))
      | posInf => exact h.elim
    · rw [ofInt_of_gt hlt]
      cases d with
      | negInf => exact negInf_le _
      | finite v => exact finite_le_finite.mpr (Int64.toInt_le v)
      | posInf => exact h.elim

/-- Of the ends that an upper end may be, the pinned bound of an integer is the least above it. -/
theorem AtLeast.pinHigh_ofInt_le (h : d.AtLeast n) : (ofInt n).pinHigh ≤ d := by
  cases hword : word? n with
  | some w =>
    rw [← word?_eq_some_iff.mp hword] at h
    rw [ofInt_of_word? hword]
    exact atLeast_toInt_iff.mp h
  | none =>
    rcases word?_eq_none_iff.mp hword with hlt | hlt
    · rw [ofInt_of_lt hlt]
      cases d with
      | negInf => exact h.elim
      | finite v => exact finite_le_finite.mpr (Int64.minValue_le_toInt v)
      | posInf => exact le_posInf _
    · cases d with
      | negInf => exact h.elim
      | finite v => exact absurd (Int64.toInt_le v) (Int.not_le.mpr (Int.lt_of_lt_of_le hlt h))
      | posInf => exact le_posInf _

end Bound

/-! ## Ends -/

namespace Interval

variable {i j k : Interval} {lo hi lo₁ hi₁ lo₂ hi₂ c d e : Bound} {n : Int}

/-- Integers that are bounded from below have a word as their lower end. -/
theorem Normal.exists_low_eq (hi : i.Normal) {t : Int} (h : ∀ m : Int, m ∈ i → t ≤ m) :
    ∃ w, i.low = .finite w := by
  cases hlow : i.low with
  | negInf =>
    obtain ⟨m, hm, hlt⟩ := hi.exists_mem_lt hlow t
    exact absurd hlt (Int.not_lt.mpr (h m hm))
  | finite w => exact ⟨w, rfl⟩
  | posInf => exact absurd hlow hi.low_ne_posInf

/-- Integers that are bounded from above have a word as their upper end. -/
theorem Normal.exists_high_eq (hi : i.Normal) {t : Int} (h : ∀ m : Int, m ∈ i → m ≤ t) :
    ∃ w, i.high = .finite w := by
  cases hhigh : i.high with
  | negInf => exact absurd hhigh hi.high_ne_negInf
  | finite w => exact ⟨w, rfl⟩
  | posInf =>
    obtain ⟨m, hm, hlt⟩ := hi.exists_mem_gt hhigh t
    exact absurd hlt (Int.not_lt.mpr (h m hm))

theorem mem_of_ends_le (hlow : k.low ≤ i.low) (hhigh : i.high ≤ k.high) (hn : n ∈ i) : n ∈ k := by
  obtain ⟨hlo, hhi⟩ := mem_iff_ends.mp hn
  exact mem_iff_ends.mpr ⟨hlo.of_le hlow, hhi.of_le hhigh⟩

/-- Around an integer the computed ends become the ends of the interval. -/
theorem ends_saturated (hlo : lo.pinLow.AtMost n) (hhi : hi.pinHigh.AtLeast n) :
    (saturated lo hi).low = lo.pinLow ∧ (saturated lo hi).high = hi.pinHigh := by
  refine ends_between?_getD (hlo.le hhi) ?_ ?_
  · intro heq
    exact (heq ▸ hlo : Bound.posInf.AtMost n)
  · intro heq
    exact (heq ▸ hhi : Bound.negInf.AtLeast n)

/-! ## The smallest interval -/

/-- The interval `k` is the smallest normal one that holds whatever `op` makes of an integer of `i`
and one of `j`. -/
structure IsLeastFor (op : Int → Int → Int) (i j k : Interval) : Prop where
  /-- it is normal -/
  normal : k.Normal
  /-- it holds every result -/
  holds : ∀ m ∈ i, ∀ n ∈ j, op m n ∈ k
  /-- it holds no more than any other normal interval that holds every result -/
  least : ∀ k' : Interval, k'.Normal → (∀ m ∈ i, ∀ n ∈ j, op m n ∈ k') → ∀ n : Int, n ∈ k → n ∈ k'

section Attained

variable {op : Int → Int → Int} (hni : i.Normal) (hnj : j.Normal)

include hni hnj

/-- If the results have a lower bound only where `c` is the bound of one of them, then no lower end
is better than `c`. -/
theorem Normal.le_pinLow_of_attained
    (hc : ∀ t : Int, (∀ m ∈ i, ∀ n ∈ j, t ≤ op m n) →
      ∃ m ∈ i, ∃ n ∈ j, c = Bound.ofInt (op m n))
    (h : ∀ m ∈ i, ∀ n ∈ j, d.AtMost (op m n)) : d ≤ c.pinLow := by
  cases d with
  | negInf => exact Bound.negInf_le _
  | finite t =>
    obtain ⟨m, hm, n, hn, rfl⟩ := hc t.toInt h
    exact (h m hm n hn).le_pinLow_ofInt
  | posInf =>
    obtain ⟨m, hm⟩ := hni.exists_mem
    obtain ⟨n, hn⟩ := hnj.exists_mem
    exact (h m hm n hn).elim

/-- If the results have an upper bound only where `c` is the bound of one of them, then no upper end
is better than `c`. -/
theorem Normal.pinHigh_le_of_attained
    (hc : ∀ t : Int, (∀ m ∈ i, ∀ n ∈ j, op m n ≤ t) →
      ∃ m ∈ i, ∃ n ∈ j, c = Bound.ofInt (op m n))
    (h : ∀ m ∈ i, ∀ n ∈ j, d.AtLeast (op m n)) : c.pinHigh ≤ d := by
  cases d with
  | negInf =>
    obtain ⟨m, hm⟩ := hni.exists_mem
    obtain ⟨n, hn⟩ := hnj.exists_mem
    exact (h m hm n hn).elim
  | finite t =>
    obtain ⟨m, hm, n, hn, rfl⟩ := hc t.toInt h
    exact (h m hm n hn).pinHigh_ofInt_le
  | posInf => exact Bound.le_posInf _

theorem Normal.isLeastFor_of_attained (hk : k.Normal) (hholds : ∀ m ∈ i, ∀ n ∈ j, op m n ∈ k)
    (hlow : k.low = c.pinLow) (hhigh : k.high = e.pinHigh)
    (hc : ∀ t : Int, (∀ m ∈ i, ∀ n ∈ j, t ≤ op m n) →
      ∃ m ∈ i, ∃ n ∈ j, c = Bound.ofInt (op m n))
    (he : ∀ t : Int, (∀ m ∈ i, ∀ n ∈ j, op m n ≤ t) →
      ∃ m ∈ i, ∃ n ∈ j, e = Bound.ofInt (op m n)) :
    IsLeastFor op i j k where
  normal := hk
  holds := hholds
  least k' _ h n hn := by
    refine mem_of_ends_le ?_ ?_ hn
    · rw [hlow]
      exact hni.le_pinLow_of_attained hnj hc fun m hm n hn => (mem_iff_ends.mp (h m hm n hn)).1
    · rw [hhigh]
      exact hni.pinHigh_le_of_attained hnj he fun m hm n hn => (mem_iff_ends.mp (h m hm n hn)).2

end Attained

/-! ## Sums and differences

What bounds all sums or differences bounds each operand by itself: take any integer of the other
one. So the ends that are computed with are words, and are among the integers of the operands. -/

theorem Normal.attained_low_add (hi : i.Normal) (hj : j.Normal) (hc : i.low.add? j.low = some c)
    (t : Int) (h : ∀ m ∈ i, ∀ n ∈ j, t ≤ m + n) :
    ∃ m ∈ i, ∃ n ∈ j, c = Bound.ofInt (m + n) := by
  obtain ⟨m₀, hm₀⟩ := hi.exists_mem
  obtain ⟨n₀, hn₀⟩ := hj.exists_mem
  obtain ⟨v, hv⟩ := hi.exists_low_eq fun m hm => Int.sub_right_le_of_le_add (h m hm n₀ hn₀)
  obtain ⟨w, hw⟩ := hj.exists_low_eq fun n hn => Int.sub_left_le_of_le_add (h m₀ hm₀ n hn)
  rw [hv, hw, Bound.add?_eq_ofInt] at hc
  exact ⟨v.toInt, hi.low_mem hv, w.toInt, hj.low_mem hw, (Option.some.inj hc).symm⟩

theorem Normal.attained_high_add (hi : i.Normal) (hj : j.Normal)
    (hc : i.high.add? j.high = some c) (t : Int) (h : ∀ m ∈ i, ∀ n ∈ j, m + n ≤ t) :
    ∃ m ∈ i, ∃ n ∈ j, c = Bound.ofInt (m + n) := by
  obtain ⟨m₀, hm₀⟩ := hi.exists_mem
  obtain ⟨n₀, hn₀⟩ := hj.exists_mem
  obtain ⟨v, hv⟩ := hi.exists_high_eq fun m hm => Int.le_sub_right_of_add_le (h m hm n₀ hn₀)
  obtain ⟨w, hw⟩ := hj.exists_high_eq fun n hn => Int.le_sub_left_of_add_le (h m₀ hm₀ n hn)
  rw [hv, hw, Bound.add?_eq_ofInt] at hc
  exact ⟨v.toInt, hi.high_mem hv, w.toInt, hj.high_mem hw, (Option.some.inj hc).symm⟩

theorem Normal.attained_low_sub (hi : i.Normal) (hj : j.Normal) (hc : i.low.sub? j.high = some c)
    (t : Int) (h : ∀ m ∈ i, ∀ n ∈ j, t ≤ m - n) :
    ∃ m ∈ i, ∃ n ∈ j, c = Bound.ofInt (m - n) := by
  obtain ⟨m₀, hm₀⟩ := hi.exists_mem
  obtain ⟨n₀, hn₀⟩ := hj.exists_mem
  obtain ⟨v, hv⟩ := hi.exists_low_eq fun m hm => Int.add_le_of_le_sub_right (h m hm n₀ hn₀)
  obtain ⟨w, hw⟩ := hj.exists_high_eq fun n hn => Int.le_sub_right_of_add_le
    (Int.add_le_of_le_sub_left (h m₀ hm₀ n hn))
  rw [hv, hw, Bound.sub?_eq_ofInt] at hc
  exact ⟨v.toInt, hi.low_mem hv, w.toInt, hj.high_mem hw, (Option.some.inj hc).symm⟩

theorem Normal.attained_high_sub (hi : i.Normal) (hj : j.Normal)
    (hc : i.high.sub? j.low = some c) (t : Int) (h : ∀ m ∈ i, ∀ n ∈ j, m - n ≤ t) :
    ∃ m ∈ i, ∃ n ∈ j, c = Bound.ofInt (m - n) := by
  obtain ⟨m₀, hm₀⟩ := hi.exists_mem
  obtain ⟨n₀, hn₀⟩ := hj.exists_mem
  obtain ⟨v, hv⟩ := hi.exists_high_eq fun m hm => Int.le_add_of_sub_right_le (h m hm n₀ hn₀)
  obtain ⟨w, hw⟩ := hj.exists_low_eq fun n hn => Int.sub_le_of_sub_le (h m₀ hm₀ n hn)
  rw [hv, hw, Bound.sub?_eq_ofInt] at hc
  exact ⟨v.toInt, hi.high_mem hv, w.toInt, hj.low_mem hw, (Option.some.inj hc).symm⟩

/-- The ends of two normal intervals have sums, which are the ends of the interval of sums. -/
theorem Normal.ends_add (hi : i.Normal) (hj : j.Normal) (hbi : i.bounds? = some (lo₁, hi₁))
    (hbj : j.bounds? = some (lo₂, hi₂)) :
    ∃ lo hi, lo₁.add? lo₂ = some lo ∧ hi₁.add? hi₂ = some hi ∧
      (i.add j).low = lo.pinLow ∧ (i.add j).high = hi.pinHigh := by
  obtain ⟨m, hm⟩ := hi.exists_mem
  obtain ⟨n, hn⟩ := hj.exists_mem
  rw [mem_iff_of_bounds? hbi] at hm
  rw [mem_iff_of_bounds? hbj] at hn
  obtain ⟨lo, hlo, hlow⟩ := hm.1.add? hn.1
  obtain ⟨hi, hhi, hhigh⟩ := hm.2.add? hn.2
  refine ⟨lo, hi, hlo, hhi, ?_⟩
  rw [add]
  simp only [hbi, hbj, hlo, hhi]
  exact ends_saturated hlow hhigh

theorem Normal.ends_sub (hi : i.Normal) (hj : j.Normal) (hbi : i.bounds? = some (lo₁, hi₁))
    (hbj : j.bounds? = some (lo₂, hi₂)) :
    ∃ lo hi, lo₁.sub? hi₂ = some lo ∧ hi₁.sub? lo₂ = some hi ∧
      (i.sub j).low = lo.pinLow ∧ (i.sub j).high = hi.pinHigh := by
  obtain ⟨m, hm⟩ := hi.exists_mem
  obtain ⟨n, hn⟩ := hj.exists_mem
  rw [mem_iff_of_bounds? hbi] at hm
  rw [mem_iff_of_bounds? hbj] at hn
  obtain ⟨lo, hlo, hlow⟩ := hm.1.sub? hn.2
  obtain ⟨hi, hhi, hhigh⟩ := hm.2.sub? hn.1
  refine ⟨lo, hi, hlo, hhi, ?_⟩
  rw [sub]
  simp only [hbi, hbj, hlo, hhi]
  exact ends_saturated hlow hhigh

theorem Normal.isLeastFor_add (hi : i.Normal) (hj : j.Normal) (hbi : i.bounds? = some (lo₁, hi₁))
    (hbj : j.bounds? = some (lo₂, hi₂)) : IsLeastFor (· + ·) i j (i.add j) := by
  obtain ⟨lo, hi', hlo, hhi, hlow, hhigh⟩ := hi.ends_add hj hbi hbj
  obtain ⟨rfl, rfl⟩ := ends_of_bounds? hbi
  obtain ⟨rfl, rfl⟩ := ends_of_bounds? hbj
  exact hi.isLeastFor_of_attained hj (normal_add i j) (fun _ hm _ hn => add_mem_add hm hn)
    hlow hhigh (hi.attained_low_add hj hlo) (hi.attained_high_add hj hhi)

theorem Normal.isLeastFor_sub (hi : i.Normal) (hj : j.Normal) (hbi : i.bounds? = some (lo₁, hi₁))
    (hbj : j.bounds? = some (lo₂, hi₂)) : IsLeastFor (· - ·) i j (i.sub j) := by
  obtain ⟨lo, hi', hlo, hhi, hlow, hhigh⟩ := hi.ends_sub hj hbi hbj
  obtain ⟨rfl, rfl⟩ := ends_of_bounds? hbi
  obtain ⟨rfl, rfl⟩ := ends_of_bounds? hbj
  exact hi.isLeastFor_of_attained hj (normal_sub i j) (fun _ hm _ hn => sub_mem_sub hm hn)
    hlow hhigh (hi.attained_low_sub hj hlo) (hi.attained_high_sub hj hhi)

/-- **Sums and differences are the smallest.** Addition and subtraction of known normal intervals
give the smallest intervals that hold all sums and all differences. The undefined sum of opposite
infinities does not occur in them. Nothing is known of the result if nothing is known of an
operand. -/
theorem Normal.add_sub_least (hi : i.Normal) (hj : j.Normal) :
    (i ≠ .unknown → j ≠ .unknown →
      IsLeastFor (· + ·) i j (i.add j) ∧ IsLeastFor (· - ·) i j (i.sub j)) ∧
    (∀ lo₁ hi₁ lo₂ hi₂, i.bounds? = some (lo₁, hi₁) → j.bounds? = some (lo₂, hi₂) →
      lo₁.add? lo₂ ≠ none ∧ hi₁.add? hi₂ ≠ none ∧ lo₁.sub? hi₂ ≠ none ∧ hi₁.sub? lo₂ ≠ none) ∧
    (i = .unknown ∨ j = .unknown → i.add j = .unknown ∧ i.sub j = .unknown) := by
  refine ⟨?least, ?defined, ?unknown⟩
  case least =>
    intro hknown₁ hknown₂
    have hbi := bounds?_eq_ends hknown₁
    have hbj := bounds?_eq_ends hknown₂
    exact ⟨hi.isLeastFor_add hj hbi hbj, hi.isLeastFor_sub hj hbi hbj⟩
  case defined =>
    intro lo₁ hi₁ lo₂ hi₂ hbi hbj
    obtain ⟨_, _, hlo, hhi, -⟩ := hi.ends_add hj hbi hbj
    obtain ⟨_, _, hlo', hhi', -⟩ := hi.ends_sub hj hbi hbj
    simp [hlo, hhi, hlo', hhi']
  case unknown =>
    rintro (rfl | rfl)
    · exact ⟨rfl, rfl⟩
    · exact ⟨add_unknown i, sub_unknown i⟩

/-- A positive number leads up from the least word. What is left when it is taken away is no word,
and only known to be at most the least one. -/
theorem Normal.add_sub_least_minValue :
    let i := constant Int64.minValue
    let j := range (.finite 1) .posInf
    (i.Normal ∧ j.Normal ∧ i ≠ .unknown ∧ j ≠ .unknown) ∧
      IsLeastFor (· + ·) i j (range (.finite (-9223372036854775807)) .posInf) ∧
      IsLeastFor (· - ·) i j (range .negInf (.finite Int64.minValue)) := by
  have hi : (constant Int64.minValue).Normal := trivial
  have hj : (range (.finite 1) .posInf).Normal := ⟨by decide, by decide⟩
  exact ⟨⟨hi, hj, nofun, nofun⟩, (Normal.add_sub_least hi hj).1 nofun nofun⟩

end Interval

end BufferBounds
