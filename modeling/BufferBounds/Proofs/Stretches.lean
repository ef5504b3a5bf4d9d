import BufferBounds.Proofs.ExactVerdicts
import BufferBounds.Proofs.Guards
import BufferBounds.Proofs.Sums

/-!
# Stretches of words

A counter goes through a stretch of words, from one to another. Stretches are normal intervals, and
are given by their ends as integers, so that counting is done in the integers: two stretches are
joined by joining their ends, a known number is added to a stretch by adding it to the ends, and a
comparison with a word leaves the stretch of the words for which it holds, or nothing.
-/

namespace BufferBounds

theorem exists_word {n : Int} (hlow : Int64.minValue.toInt ≤ n) (hhigh : n ≤ Int64.maxValue.toInt) :
    ∃ w : Int64, w.toInt = n := by
  cases h : word? n with
  | some w => exact ⟨w, word?_eq_some_iff.mp h⟩
  | none =>
    rcases word?_eq_none_iff.mp h with hlt | hlt
    · exact absurd hlow (Int.not_le.mpr hlt)
    · exact absurd hhigh (Int.not_le.mpr hlt)

namespace Bound

theorem ofInt_toInt (w : Int64) : ofInt w.toInt = finite w :=
  ofInt_of_word? (word?_eq_some_iff.mpr rfl)

/-- Bounds are in the order of their integers. -/
theorem ofInt_le_ofInt {m n : Int} (hle : m ≤ n) : ofInt m ≤ ofInt n := by
  by_cases hlow : m < Int64.minValue.toInt
  · rw [ofInt_of_lt hlow]
    exact negInf_le _
  by_cases hhigh : Int64.maxValue.toInt < n
  · rw [ofInt_of_gt hhigh]
    exact le_posInf _
  obtain ⟨a, rfl⟩ := exists_word (n := m) (by omega) (by omega)
  obtain ⟨b, rfl⟩ := exists_word (n := n) (by omega) (by omega)
  rw [ofInt_toInt, ofInt_toInt]
  exact finite_le_finite.mpr hle

end Bound

namespace Interval

/-- The words from `m` to `n`. -/
def stretch (m n : Int) : Interval := (between? (.ofInt m) (.ofInt n)).getD .unknown

/-- The integers from `m` to `n` are words, and there are some. -/
structure Words (m n : Int) : Prop where
  /-- they are not below the least word -/
  minValue_le : Int64.minValue.toInt ≤ m
  /-- there are some -/
  le : m ≤ n
  /-- they are not above the greatest word -/
  le_maxValue : n ≤ Int64.maxValue.toInt

variable {i : Interval} {m n m' n' z : Int}

namespace Words

theorem of_le {w : Int64} (hzero : 0 ≤ m) (hle : m ≤ n) (hn : n ≤ w.toInt) : Words m n where
  minValue_le := Int.le_trans (by decide) hzero
  le := hle
  le_maxValue := Int.le_trans hn (Int64.toInt_le w)

theorem exists_word (h : Words m n) (hz : m ≤ z ∧ z ≤ n) : ∃ w : Int64, w.toInt = z :=
  BufferBounds.exists_word (Int.le_trans h.minValue_le hz.1) (Int.le_trans hz.2 h.le_maxValue)

theorem exists_words (h : Words m n) : ∃ a b : Int64, a.toInt = m ∧ b.toInt = n ∧ a ≤ b := by
  obtain ⟨a, rfl⟩ := h.exists_word ⟨Int.le_refl m, h.le⟩
  obtain ⟨b, rfl⟩ := h.exists_word ⟨h.le, Int.le_refl n⟩
  exact ⟨a, b, rfl, rfl, Int64.le_iff_toInt_le.mpr h.le⟩

theorem union (h : Words m n) (h' : Words m' n') : Words (min m m') (max n n') where
  minValue_le := Int.le_min.mpr ⟨h.minValue_le, h'.minValue_le⟩
  le := Int.le_trans (Int.min_le_left ..) (Int.le_trans h.le (Int.le_max_left ..))
  le_maxValue := Int.max_le.mpr ⟨h.le_maxValue, h'.le_maxValue⟩

end Words

theorem normal_stretch (m n : Int) : (stretch m n).Normal := normal_between?_getD ..

theorem ends_stretch (h : Words m n) :
    (stretch m n).low = .ofInt m ∧ (stretch m n).high = .ofInt n := by
  obtain ⟨a, b, rfl, rfl, hle⟩ := h.exists_words
  rw [stretch, Bound.ofInt_toInt, Bound.ofInt_toInt]
  exact ends_between?_getD hle (Bound.finite_ne_posInf a) (Bound.finite_ne_negInf b)

theorem mem_stretch_iff (h : Words m n) : z ∈ stretch m n ↔ m ≤ z ∧ z ≤ n := by
  obtain ⟨hlow, hhigh⟩ := ends_stretch h
  obtain ⟨a, b, rfl, rfl, -⟩ := h.exists_words
  rw [mem_iff_ends, hlow, hhigh, Bound.ofInt_toInt, Bound.ofInt_toInt]
  exact Iff.rfl

theorem stretch_ne_unknown (h : Words m n) : stretch m n ≠ .unknown := by
  intro heq
  have hmem : n + 1 ∈ stretch m n := heq ▸ mem_unknown
  have := ((mem_stretch_iff h).mp hmem).2
  omega

/-- The normal interval with these integers is the stretch. -/
theorem Normal.eq_stretch (hi : i.Normal) (h : Words m n) (hmem : ∀ z : Int, z ∈ i ↔ m ≤ z ∧ z ≤ n) :
    i = stretch m n :=
  (hi.eq_iff_mem_iff (normal_stretch m n)).mpr fun z => (hmem z).trans (mem_stretch_iff h).symm

theorem stretch_inj (h : Words m n) (h' : Words m' n') :
    stretch m n = stretch m' n' ↔ m = m' ∧ n = n' := by
  constructor
  · intro heq
    have hmem : ∀ z, m ≤ z ∧ z ≤ n ↔ m' ≤ z ∧ z ≤ n' := fun z => by
      rw [← mem_stretch_iff h, heq, mem_stretch_iff h']
    have := h.le
    have := h'.le
    have := hmem m
    have := hmem n
    have := hmem m'
    have := hmem n'
    omega
  · rintro ⟨rfl, rfl⟩
    rfl

/-! ## The two forms -/

/-- A stretch of one word is that word. -/
theorem stretch_self (w : Int64) : stretch w.toInt w.toInt = constant w := by
  rw [stretch, Bound.ofInt_toInt, between?_self]
  rfl

/-- A longer one is the interval between its ends. -/
theorem stretch_of_lt {a b : Int64} (h : a.toInt < b.toInt) :
    stretch a.toInt b.toInt = range (.finite a) (.finite b) := by
  have hlt : Bound.finite a < .finite b := lt_of_not_ge fun hle =>
    absurd h (Int.not_lt.mpr (Bound.finite_le_finite.mp hle))
  rw [stretch, Bound.ofInt_toInt, Bound.ofInt_toInt, between?.eq_def, if_neg (lt_asymm hlt),
    if_neg hlt.ne, if_neg fun hends => Bound.finite_ne_negInf a hends.1]
  rfl

/-! ## Operations -/

/-- Joined stretches reach from the least to the greatest end. -/
theorem stretch_join (h : Words m n) (h' : Words m' n') :
    (stretch m n).join (stretch m' n') = stretch (min m m') (max n n') := by
  have hmono : Monotone Bound.ofInt := fun _ _ => Bound.ofInt_le_ofInt
  obtain ⟨hlow, hhigh⟩ := ends_join (normal_stretch m n) (normal_stretch m' n')
  obtain ⟨hlow', hhigh'⟩ := ends_stretch (h.union h')
  refine ((normal_stretch m n).join _).ext (normal_stretch ..) ?_ ?_
  · rw [hlow, hlow', (ends_stretch h).1, (ends_stretch h').1, hmono.map_min]
  · rw [hhigh, hhigh', (ends_stretch h).2, (ends_stretch h').2, hmono.map_max]

/-- Adding a known number to a stretch moves it. -/
theorem stretch_add {w : Int64} (h : Words m n) (h' : Words (m + w.toInt) (n + w.toInt)) :
    (stretch m n).add (constant w) = stretch (m + w.toInt) (n + w.toInt) := by
  have hleast := ((normal_stretch m n).add_sub_least (j := constant w) trivial).1
    (stretch_ne_unknown h) nofun |>.1
  refine hleast.normal.eq_stretch h' fun z => ⟨fun hz => ?_, fun hz => ?_⟩
  · refine (mem_stretch_iff h').mp (hleast.least _ (normal_stretch ..) (fun x hx y hy => ?_) z hz)
    obtain rfl := mem_constant.mp hy
    have := (mem_stretch_iff h).mp hx
    exact (mem_stretch_iff h').mpr (by omega)
  · have hsum := hleast.holds (z - w.toInt) ((mem_stretch_iff h).mpr (by omega)) w.toInt
      (mem_constant.mpr rfl)
    rwa [Int.sub_add_cancel] at hsum

end Interval

/-! ## Guards -/

namespace Store

open BufferBounds.Interval

variable {s : Store} {var : String} {op : Comparison} {m n m' n' : Int} {w : Int64}

/-- A comparison with a known number leaves the stretch of the words for which it holds. -/
theorem assume?_stretch (hget : s.get? var = some (.scalar (stretch m n))) (h : Words m n)
    (hop : op ≠ .neq) (h' : Words m' n')
    (hleft : ∀ z, m' ≤ z ∧ z ≤ n' ↔ (m ≤ z ∧ z ≤ n) ∧ op.Holds z w.toInt) :
    s.assume? var op (.constant w) = some (s.bind var (.scalar (stretch m' n'))) := by
  have hb : (constant w).bounds? = some (.finite w, .finite w) := rfl
  have hselected : ∀ v : Int64, Selected op (stretch m n) (constant w) v ↔
      m' ≤ v.toInt ∧ v.toInt ≤ n' := by
    intro v
    rw [hleft, Selected, mem_stretch_iff h]
    refine and_congr_right fun _ => ⟨?_, fun hholds => ⟨w, mem_constant.mpr rfl, hholds⟩⟩
    rintro ⟨u, hu, hholds⟩
    exact mem_constant.mp hu ▸ hholds
  have hw : (constant w).Normal := trivial
  rw [assume?_eq_map hget (stretch_ne_unknown h) hb hop]
  cases hk : (comparable? op (.constant w) (.finite w) (.finite w)).bind (stretch m n).meet? with
  | none =>
    have hnone := (restriction_eq_none_iff (normal_stretch m n) (stretch_ne_unknown h) hw hb hop).mp hk
    obtain ⟨a, rfl⟩ := h'.exists_word ⟨Int.le_refl m', h'.le⟩
    exact absurd ⟨a, (hselected a).mpr ⟨Int.le_refl _, h'.le⟩⟩ hnone
  | some k =>
    have hmem : ∀ v : Int64, v.toInt ∈ k ↔ m' ≤ v.toInt ∧ v.toInt ≤ n' := fun v =>
      (mem_restriction_iff (normal_stretch m n) (stretch_ne_unknown h) hw hb hop hk).trans
        (hselected v)
    obtain ⟨allowed, hallowed, hmeet⟩ := Option.bind_eq_some_iff.mp hk
    refine congrArg (fun i => some (s.bind var (.scalar i))) ?_
    refine (normal_restriction (normal_stretch m n) hk).eq_stretch h' fun z => ⟨fun hz => ?_, ?_⟩
    · -- what is left of a stretch are words
      have hboth := ((normal_stretch m n).mem_meet?_iff (normal_of_comparable? hw hallowed)
        (stretch_ne_unknown h) hmeet).mp hz
      obtain ⟨v, rfl⟩ := h.exists_word ((mem_stretch_iff h).mp hboth.1)
      exact (hmem v).mp hz
    · intro hz
      obtain ⟨v, rfl⟩ := h'.exists_word hz
      exact (hmem v).mpr hz

/-- Where a comparison with a known number holds for no word, nothing is left. -/
theorem assume?_stretch_eq_none (hget : s.get? var = some (.scalar (stretch m n))) (h : Words m n)
    (hop : op ≠ .neq) (hnone : ∀ z, m ≤ z ∧ z ≤ n → ¬ op.Holds z w.toInt) :
    s.assume? var op (.constant w) = none := by
  have hb : (constant w).bounds? = some (.finite w, .finite w) := rfl
  have hw : (constant w).Normal := trivial
  rw [assume?_eq_map hget (stretch_ne_unknown h) hb hop, Option.map_eq_none_iff,
    restriction_eq_none_iff (normal_stretch m n) (stretch_ne_unknown h) hw hb hop]
  rintro ⟨v, hv, u, hu, hholds⟩
  obtain hu := mem_constant.mp hu
  exact hnone v.toInt ((mem_stretch_iff h).mp hv) (hu ▸ hholds)

end Store

/-! ## Verdicts -/

/-- The verdict on an index of which it is known that it goes from zero up to a word. -/
theorem StraddlePolicy.classify_stretch {size w : Int64} (hw : 0 ≤ w.toInt)
    (policy : StraddlePolicy) :
    policy.classify (.constant size) (Interval.stretch 0 w.toInt) =
      if w.toInt < size.toInt then .inBounds
      else if size.toInt ≤ 0 ∨ policy = .reportMayOverflow then .outOfBounds
      else .indeterminate := by
  have hwords : Interval.Words 0 w.toInt := .of_le (Int.le_refl 0) hw (Int.le_refl _)
  have hsize : Interval.constant size ≠ .unknown := nofun
  have hlow : (Interval.stretch 0 w.toInt).low = .finite 0 := (Interval.ends_stretch hwords).1
  have hhigh : (Interval.stretch 0 w.toInt).high = .finite w :=
    (Interval.ends_stretch hwords).2.trans (Bound.ofInt_toInt w)
  have hlast : ∀ v : Int64, (Bound.finite size).pred < .finite v ↔ ¬ v.toInt < size.toInt :=
    fun v => not_le.symm.trans (not_congr Bound.finite_le_pred)
  have hzero : ¬ Bound.finite w < .finite 0 := not_lt.mpr (Bound.finite_le_finite.mpr hw)
  have hempty : ¬ (0 : Int64).toInt < size.toInt ↔ size.toInt ≤ 0 := Int.not_lt
  rw [classify_of_ne_unknown hsize (Interval.stretch_ne_unknown hwords), hlow, hhigh]
  simp only [Interval.low, Interval.high, le_refl, true_and, Bound.finite_le_pred, hlast, hzero,
    false_or, lt_irrefl, or_false, hempty]
  split
  · rfl
  · rename_i hout
    by_cases hsize : size.toInt ≤ 0
    · rw [if_pos hsize, if_pos (Or.inl hsize)]
    · simp only [hsize, if_false, hout, not_false_eq_true, and_true, false_or]

end BufferBounds
