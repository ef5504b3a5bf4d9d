import BufferBounds.Guard
import BufferBounds.Proofs.BoundOrder

/-!
# Integers in intervals

An interval is read as the set of integers it describes. Each operation is sound for this reading:
it loses no integer that it should keep. Nothing is asked of the spelling of the operands, so an
interval no constructor would build is covered too. What a guard does to a store is told here once,
for all that is proved of guards.
-/

namespace BufferBounds

namespace Interval

/-- The integer is one of those that the interval describes. -/
protected def Mem (i : Interval) (n : Int) : Prop :=
  match i with
  | .constant w => n = w.toInt
  | .range lo hi => lo.AtMost n ∧ hi.AtLeast n
  | .unknown => True

instance : Membership Int Interval := ⟨Interval.Mem⟩

variable {i j k : Interval} {lo hi : Bound} {m n : Int}

@[simp] theorem mem_constant {w : Int64} : n ∈ constant w ↔ n = w.toInt := Iff.rfl

@[simp] theorem mem_range : n ∈ range lo hi ↔ lo.AtMost n ∧ hi.AtLeast n := Iff.rfl

@[simp] theorem mem_unknown : n ∈ unknown := trivial

theorem bounds?_eq_none_iff : i.bounds? = none ↔ i = .unknown := by
  cases i <;> simp [bounds?]

/-- The integers of an interval are those between its bounds. -/
theorem mem_iff_of_bounds? (h : i.bounds? = some (lo, hi)) :
    n ∈ i ↔ lo.AtMost n ∧ hi.AtLeast n := by
  cases i with
  | constant w =>
    cases h
    simp only [mem_constant, Bound.AtMost, Bound.AtLeast]
    omega
  | range lo' hi' =>
    cases h
    rfl
  | unknown => cases h

theorem isUnknown_eq_false (h : i ≠ .unknown) : i.isUnknown = false := by
  cases i with
  | constant w => rfl
  | range lo hi => rfl
  | unknown => exact absurd rfl h

/-- Two intervals are known to be the same word only if they are the same constant. -/
theorem constant?_eq_iff : i.isConstant ∧ i.constant? = j.constant? ↔
    ∃ c, i = .constant c ∧ j = .constant c := by
  constructor
  · rintro ⟨hi, h⟩
    cases i with
    | constant c =>
      cases j with
      | constant d =>
        obtain rfl := Option.some.inj h
        exact ⟨c, rfl, rfl⟩
      | range lo hi => cases h
      | unknown => cases h
    | range lo hi => cases hi
    | unknown => cases hi
  · rintro ⟨c, rfl, rfl⟩
    exact ⟨rfl, rfl⟩

/-- The word nearest to an integer of an interval lies in it too. -/
theorem saturate_mem (h : n ∈ i) : (saturate n).toInt ∈ i := by
  cases i with
  | constant w =>
    rw [mem_constant] at h ⊢
    rw [h, saturate_toInt]
  | range lo hi => exact ⟨h.1.saturate, h.2.saturate⟩
  | unknown => exact trivial

/-! ## Construction -/

/-- Between two bounds that an integer lies between there is an interval, with this integer. -/
theorem exists_mem_between? (hlo : lo.AtMost n) (hhi : hi.AtLeast n) :
    ∃ i, between? lo hi = some i ∧ n ∈ i := by
  have hle : ¬ hi < lo := not_lt.mpr (hlo.le hhi)
  rw [between?.eq_def]
  rw [if_neg hle]
  split
  · rename_i heq
    subst heq
    -- two equal bounds leave one word, or are an infinity and tell nothing
    cases lo with
    | negInf => exact ⟨_, rfl, trivial⟩
    | finite w => exact ⟨_, rfl, Int.le_antisymm hhi hlo⟩
    | posInf => exact ⟨_, rfl, trivial⟩
  · split
    · exact ⟨_, rfl, trivial⟩
    · exact ⟨_, rfl, hlo, hhi⟩

theorem mem_between?_getD (hlo : lo.AtMost n) (hhi : hi.AtLeast n) :
    n ∈ (between? lo hi).getD .unknown := by
  obtain ⟨i, heq, hn⟩ := exists_mem_between? hlo hhi
  rw [heq]
  exact hn

/-! ## Arithmetic -/

theorem mem_saturated (hlo : lo.pinLow.AtMost n) (hhi : hi.pinHigh.AtLeast n) :
    n ∈ saturated lo hi :=
  mem_between?_getD hlo hhi

@[simp] theorem add_unknown (i : Interval) : i.add unknown = unknown := by
  cases i <;> rfl

@[simp] theorem sub_unknown (i : Interval) : i.sub unknown = unknown := by
  cases i <;> rfl

/-- An interval of sums holds every sum. -/
theorem add_mem_add (hm : m ∈ i) (hn : n ∈ j) : m + n ∈ i.add j := by
  rw [add]
  split
  · rename_i lo₁ hi₁ lo₂ hi₂ hi hj
    rw [mem_iff_of_bounds? hi] at hm
    rw [mem_iff_of_bounds? hj] at hn
    obtain ⟨lo, hlo, hlow⟩ := hm.1.add? hn.1
    obtain ⟨hi, hhi, hhigh⟩ := hm.2.add? hn.2
    simp only [hlo, hhi]
    exact mem_saturated hlow hhigh
  · exact mem_unknown

/-- An interval of differences holds every difference. -/
theorem sub_mem_sub (hm : m ∈ i) (hn : n ∈ j) : m - n ∈ i.sub j := by
  rw [sub]
  split
  · rename_i lo₁ hi₁ lo₂ hi₂ hi hj
    rw [mem_iff_of_bounds? hi] at hm
    rw [mem_iff_of_bounds? hj] at hn
    obtain ⟨lo, hlo, hlow⟩ := hm.1.sub? hn.2
    obtain ⟨hi, hhi, hhigh⟩ := hm.2.sub? hn.1
    simp only [hlo, hhi]
    exact mem_saturated hlow hhigh
  · exact mem_unknown

@[simp] theorem mul_unknown (i : Interval) : i.mul unknown = unknown := by
  cases i <;> rfl

/-- An interval of products holds the product if it is a word, and anything if it is none. -/
theorem mem_mul {a b p : Int64} (ha : a.toInt ∈ i) (hb : b.toInt ∈ j)
    (h : ∀ n, word? (a.toInt * b.toInt) = some n → p = n) : p.toInt ∈ i.mul j := by
  cases i with
  | constant v =>
    cases j with
    | constant w =>
      obtain rfl : a = v := Int64.toInt_inj.mp ha
      obtain rfl : b = w := Int64.toInt_inj.mp hb
      rw [mul]
      cases hword : word? (a.toInt * b.toInt) with
      | none => exact mem_unknown
      | some n =>
        rw [h n hword]
        exact mem_constant.mpr rfl
    | range lo hi => exact mem_unknown
    | unknown => exact mem_unknown
  | range lo hi => exact mem_unknown
  | unknown => exact mem_unknown

/-! ## Joins and meets -/

theorem mem_join_left (h : n ∈ i) : n ∈ i.join j := by
  rw [join]
  split
  · exact h
  · split
    · rename_i hi hj
      rw [mem_iff_of_bounds? hi] at h
      refine mem_between?_getD ?_ ?_
      · exact Bound.atMost_min.mpr (Or.inl h.1)
      · exact Bound.atLeast_max.mpr (Or.inl h.2)
    · exact mem_unknown

theorem mem_join_right (h : n ∈ j) : n ∈ i.join j := by
  rw [join]
  split
  · rename_i heq
    exact heq ▸ h
  · split
    · rename_i hi hj
      rw [mem_iff_of_bounds? hj] at h
      refine mem_between?_getD ?_ ?_
      · exact Bound.atMost_min.mpr (Or.inr h.1)
      · exact Bound.atLeast_max.mpr (Or.inr h.2)
    · exact mem_unknown

/-- What two intervals have in common is not lost, nor found to be nothing. -/
theorem exists_mem_meet? (hi : n ∈ i) (hj : n ∈ j) : ∃ k, i.meet? j = some k ∧ n ∈ k := by
  rw [meet?]
  split
  · exact ⟨_, rfl, mem_unknown⟩
  · exact ⟨_, rfl, hi⟩
  · rename_i hbi hbj
    rw [mem_iff_of_bounds? hbi] at hi
    rw [mem_iff_of_bounds? hbj] at hj
    refine exists_mem_between? ?_ ?_
    · exact Bound.atMost_max.mpr ⟨hi.1, hj.1⟩
    · exact Bound.atLeast_min.mpr ⟨hi.2, hj.2⟩

end Interval

/-! ## Comparisons -/

namespace Comparison

/-- Two integers compare as told. -/
def Holds : Comparison → Int → Int → Prop
  | .eq, m, n => m = n
  | .neq, m, n => m ≠ n
  | .lt, m, n => m < n
  | .le, m, n => m ≤ n
  | .gt, m, n => n < m
  | .ge, m, n => n ≤ m

instance (op : Comparison) (m n : Int) : Decidable (op.Holds m n) :=
  match op with
  | .eq => inferInstanceAs (Decidable (m = n))
  | .neq => inferInstanceAs (Decidable (m ≠ n))
  | .lt => inferInstanceAs (Decidable (m < n))
  | .le => inferInstanceAs (Decidable (m ≤ n))
  | .gt => inferInstanceAs (Decidable (n < m))
  | .ge => inferInstanceAs (Decidable (n ≤ m))

theorem holds_negate {op : Comparison} {m n : Int} : op.negate.Holds m n ↔ ¬ op.Holds m n := by
  cases op <;> simp only [negate, Holds] <;> omega

end Comparison

namespace Interval

/-- The comparison with what lies between the bounds asks for integers beyond the words: greater
than the greatest word, or less than the least. -/
def BeyondWords (op : Comparison) (lo hi : Bound) : Prop :=
  op = .gt ∧ lo = .finite Int64.maxValue ∨ op = .lt ∧ hi = .finite Int64.minValue

/-- An integer that compares with one of an interval is among those that can, unless the comparison
asks for integers beyond the words. -/
theorem exists_mem_comparable?_of_not_beyondWords {op : Comparison} {value : Interval}
    {lo hi : Bound} {m n : Int} (hvalue : value.bounds? = some (lo, hi)) (hn : n ∈ value)
    (h : op.Holds m n) (hwords : ¬ BeyondWords op lo hi) :
    ∃ allowed, comparable? op value lo hi = some allowed ∧ m ∈ allowed := by
  obtain ⟨hlo, hhi⟩ := (mem_iff_of_bounds? hvalue).mp hn
  cases op with
  | eq => exact ⟨value, rfl, (show m = n from h) ▸ hn⟩
  | neq => exact ⟨_, rfl, mem_unknown⟩
  | lt =>
    have hpred := hhi.pred_of_ne h fun heq => hwords (Or.inr ⟨rfl, heq⟩)
    have hne : hi.pred ≠ .negInf := by
      intro heq
      rw [heq] at hpred
      exact hpred
    rw [comparable?, if_neg hne]
    exact exists_mem_between? trivial hpred
  | le => exact exists_mem_between? trivial (hhi.anti h)
  | gt =>
    obtain ⟨next, hnext, hlow⟩ := hlo.add?_one_of_ne h fun heq => hwords (Or.inl ⟨rfl, heq⟩)
    have hne : next ≠ .posInf := by
      rintro rfl
      exact hlow
    rw [comparable?]
    simp only [hnext, Option.getD_some, if_neg hne]
    exact exists_mem_between? hlow trivial
  | ge => exact exists_mem_between? (hlo.mono h) trivial

/-- Where the comparison asks for integers beyond the words, what compares as told is no word. -/
theorem word?_eq_none_of_beyondWords {op : Comparison} {value : Interval} {lo hi : Bound}
    {m n : Int} (hvalue : value.bounds? = some (lo, hi)) (hn : n ∈ value) (h : op.Holds m n)
    (hwords : BeyondWords op lo hi) : word? m = none := by
  obtain ⟨hlo, hhi⟩ := (mem_iff_of_bounds? hvalue).mp hn
  rw [word?_eq_none_iff]
  rcases hwords with ⟨rfl, rfl⟩ | ⟨rfl, rfl⟩
  · exact Or.inr (Int.lt_of_le_of_lt hlo h)
  · exact Or.inl (Int.lt_of_lt_of_le h hhi)

/-- A word compares only if the comparison does not ask for integers beyond the words. -/
theorem not_beyondWords {op : Comparison} {value : Interval} {lo hi : Bound} {w : Int64} {n : Int}
    (hvalue : value.bounds? = some (lo, hi)) (hn : n ∈ value) (h : op.Holds w.toInt n) :
    ¬ BeyondWords op lo hi := by
  intro hwords
  have hnone := word?_eq_none_of_beyondWords hvalue hn h hwords
  rw [word?_eq_some_iff.mpr rfl] at hnone
  cases hnone

/-- A word that compares with an integer of an interval is among those that can. -/
theorem exists_mem_comparable? {op : Comparison} {value : Interval} {lo hi : Bound} {w : Int64}
    {n : Int} (hvalue : value.bounds? = some (lo, hi)) (hn : n ∈ value)
    (h : op.Holds w.toInt n) : ∃ allowed, comparable? op value lo hi = some allowed ∧
      w.toInt ∈ allowed :=
  exists_mem_comparable?_of_not_beyondWords hvalue hn h (not_beyondWords hvalue hn h)

end Interval

/-! ## Guards -/

namespace Store

variable {s : Store} {var : String} {current value : Interval} {op : Comparison} {lo hi : Bound}
  {m n : Int}

/-- A comparison for anything but being different restricts the number of the variable. -/
theorem assume?_eq_map (h : s.get? var = some (.scalar current)) (hknown : current ≠ .unknown)
    (hb : value.bounds? = some (lo, hi)) (hop : op ≠ .neq) :
    s.assume? var op value = ((Interval.comparable? op value lo hi).bind current.meet?).map
      fun i => s.bind var (.scalar i) := by
  rw [assume?]
  simp only [h, hb, Interval.isUnknown_eq_false hknown, Bool.false_eq_true, if_false, if_neg hop]
  cases Interval.comparable? op value lo hi with
  | none => rfl
  | some allowed =>
    rw [Option.bind_eq_bind, Option.bind_some, Option.bind_some]
    cases current.meet? allowed <;> rfl

/-- Compared with what nothing is known of, nothing changes. -/
theorem assume?_unknown (s : Store) (var : String) (op : Comparison) :
    s.assume? var op .unknown = some s := by
  rw [assume?]
  split
  · rename_i hb
    cases hb
  · rfl

/-- Where the variable has no number that something is known of, nothing changes. -/
theorem assume?_of_forall (h : ∀ i, s.get? var = some (.scalar i) → i = .unknown)
    (op : Comparison) (value : Interval) : s.assume? var op value = some s := by
  rw [assume?]
  split
  · rename_i current lo hi hget hb
    rw [h current hget]
    rfl
  · rfl

/-- A store changes only where known numbers are compared. -/
theorem assume?_eq_self_or (s : Store) (var : String) (op : Comparison) (value : Interval) :
    s.assume? var op value = some s ∨ ∃ current lo hi, s.get? var = some (.scalar current) ∧
      current ≠ .unknown ∧ value.bounds? = some (lo, hi) := by
  cases hb : value.bounds? with
  | none =>
    rw [Interval.bounds?_eq_none_iff.mp hb]
    exact Or.inl (assume?_unknown s var op)
  | some bounds =>
    by_cases h : ∀ i, s.get? var = some (.scalar i) → i = .unknown
    · exact Or.inl (assume?_of_forall h op value)
    · push Not at h
      obtain ⟨current, hget, hknown⟩ := h
      exact Or.inr ⟨current, bounds.1, bounds.2, hget, hknown, rfl⟩

/-- Only being different from the one number that is known leaves nothing; any other store is left
as it is. -/
theorem assume?_neq (h : s.get? var = some (.scalar current)) (hknown : current ≠ .unknown)
    (value : Interval) :
    (s.assume? var .neq value = none ↔ ∃ c, current = .constant c ∧ value = .constant c) ∧
      ∀ t, s.assume? var .neq value = some t → t = s := by
  cases hb : value.bounds? with
  | none =>
    rw [Interval.bounds?_eq_none_iff.mp hb, assume?_unknown]
    refine ⟨iff_of_false (Option.some_ne_none s) ?_, fun t ht => (Option.some.inj ht).symm⟩
    rintro ⟨c, -, heq⟩
    cases heq
  | some bounds =>
    rw [assume?, ← Interval.constant?_eq_iff]
    simp only [h, hb, Interval.isUnknown_eq_false hknown, Bool.false_eq_true, if_false, if_true]
    split
    · rename_i hsame
      refine ⟨iff_of_true rfl hsame, fun t ht => ?_⟩
      cases ht
    · rename_i hdiffer
      refine ⟨iff_of_false (Option.some_ne_none s) hdiffer, fun t ht => ?_⟩
      exact (Option.some.inj ht).symm

/-- An integer of the variable that compares as told with one of `value` is kept, unless the
comparison asks for integers beyond the words. -/
theorem exists_assume?_of_holds (h : s.get? var = some (.scalar current))
    (hknown : current ≠ .unknown) (hb : value.bounds? = some (lo, hi)) (hn : n ∈ current)
    (hm : m ∈ value) (hholds : op.Holds n m) (hwords : ¬ Interval.BeyondWords op lo hi) :
    ∃ t, s.assume? var op value = some t ∧
      (t = s ∨ ∃ i, n ∈ i ∧ t = s.bind var (.scalar i)) := by
  by_cases hop : op = .neq
  · subst hop
    obtain ⟨hnone, hself⟩ := assume?_neq h hknown value
    cases ht : s.assume? var .neq value with
    | none =>
      -- one and the same word is not different from itself
      obtain ⟨c, rfl, rfl⟩ := hnone.mp ht
      exact absurd (hn.trans hm.symm) hholds
    | some t => exact ⟨t, rfl, Or.inl (hself t ht)⟩
  · obtain ⟨allowed, hallowed, hmem⟩ :=
      Interval.exists_mem_comparable?_of_not_beyondWords hb hm hholds hwords
    obtain ⟨i, hi, hni⟩ := Interval.exists_mem_meet? hn hmem
    refine ⟨s.bind var (.scalar i), ?_, Or.inr ⟨i, hni, rfl⟩⟩
    rw [assume?_eq_map h hknown hb hop, hallowed, Option.bind_some, hi, Option.map_some]

end Store

end BufferBounds
