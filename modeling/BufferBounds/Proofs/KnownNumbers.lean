import BufferBounds.Proofs.Verdicts

/-!
# Known numbers

What is known exactly stays so: sums and differences of known numbers are known if they are words, a
comparison of known numbers is decided, at the ends of the words too, and so is every access to a
buffer of known size at a known index.
-/

namespace BufferBounds

namespace Bound

variable {b : Bound} {w : Int64}

theorem finite_ne_negInf (w : Int64) : finite w ≠ negInf := by
  rintro ⟨⟩

theorem finite_ne_posInf (w : Int64) : finite w ≠ posInf := by
  rintro ⟨⟩

theorem negInf_ne_posInf : negInf ≠ posInf := by
  rintro ⟨⟩

theorem atMost_toInt_iff : b.AtMost w.toInt ↔ b ≤ .finite w := by
  cases b with
  | negInf => exact iff_of_true trivial (negInf_le _)
  | finite v => exact finite_le_finite.symm
  | posInf => exact iff_of_false id (not_posInf_le_finite w)

theorem atLeast_toInt_iff : b.AtLeast w.toInt ↔ .finite w ≤ b := by
  cases b with
  | negInf => exact iff_of_false id (not_finite_le_negInf w)
  | finite v => exact finite_le_finite.symm
  | posInf => exact iff_of_true trivial (le_posInf _)

/-- The words at most the predecessor of a word are those below it. -/
theorem finite_le_pred {v : Int64} : .finite w ≤ (Bound.finite v).pred ↔ w.toInt < v.toInt := by
  constructor
  · intro h
    exact lt_of_atLeast_pred (atLeast_toInt_iff.mpr h) (Int.le_refl _)
  · intro h
    have hpred := AtLeast.pred (b := .finite v) (Int.le_refl _) h (Int64.minValue_le_toInt w)
    exact atLeast_toInt_iff.mp hpred

/-- What the successor of a word is at most is greater than the word. -/
theorem lt_of_atMost_succ {v : Int64} {n : Int}
    (h : ((Bound.finite v).add? (.finite 1)).getD (.finite v) ≠ .posInf)
    (hn : (((Bound.finite v).add? (.finite 1)).getD (.finite v)).AtMost n) : v.toInt < n := by
  have hone : (1 : Int64).toInt = 1 := rfl
  rw [add?] at h hn
  cases hsum : word? (v.toInt + (1 : Int64).toInt) with
  | some next =>
    have hnext := word?_eq_some_iff.mp hsum
    simp only [hsum, Option.getD_some, AtMost] at hn
    omega
  | none =>
    -- the greatest word has no successor
    have hnone := word?_eq_none_iff.mp hsum
    have hmin := Int64.minValue_le_toInt v
    rw [maxValue_toInt] at hnone
    have hpos : 0 < v := by
      rw [Int64.lt_iff_toInt_lt, Int64.toInt_zero]
      omega
    simp only [hsum, if_pos hpos, Option.getD_some] at h
    exact absurd rfl h

/-- The bound of an integer: its word, or the infinity on its side if it has none. -/
def ofInt (n : Int) : Bound :=
  match word? n with
  | some w => .finite w
  | none => if 0 < n then .posInf else .negInf

theorem ofInt_of_word? {n : Int} (h : word? n = some w) : ofInt n = finite w := by
  rw [ofInt, h]

theorem ofInt_of_lt {n : Int} (h : n < Int64.minValue.toInt) : ofInt n = negInf := by
  rw [minValue_toInt] at h
  rw [ofInt, word?_eq_none_iff.mpr (Or.inl h)]
  exact if_neg (by omega)

theorem ofInt_of_gt {n : Int} (h : Int64.maxValue.toInt < n) : ofInt n = posInf := by
  rw [maxValue_toInt] at h
  rw [ofInt, word?_eq_none_iff.mpr (Or.inr h)]
  exact if_pos (by omega)

/-- The sum of two words is the bound of the exact sum. -/
theorem add?_eq_ofInt (a b : Int64) :
    (finite a).add? (finite b) = some (ofInt (a.toInt + b.toInt)) := by
  rw [add?, ofInt]
  cases h : word? (a.toInt + b.toInt) with
  | some sum => rfl
  | none =>
    -- a sum leaves the words on the side of each of its operands
    have hnone := word?_eq_none_iff.mp h
    have hmin := Int64.minValue_le_toInt b
    have hmax := Int64.toInt_le b
    rw [minValue_toInt, maxValue_toInt] at *
    have hpos : 0 < a ↔ 0 < a.toInt + b.toInt := by
      rw [Int64.lt_iff_toInt_lt, Int64.toInt_zero]
      omega
    simp only [hpos]

/-- The difference of two words is the bound of the exact difference. -/
theorem sub?_eq_ofInt (a b : Int64) :
    (finite a).sub? (finite b) = some (ofInt (a.toInt - b.toInt)) := by
  rw [sub?, Int.sub_eq_add_neg]
  cases hneg : word? (-b.toInt) with
  | some opposite =>
    rw [← word?_eq_some_iff.mp hneg]
    exact add?_eq_ofInt a opposite
  | none =>
    -- one word more than the greatest is added, in two sums
    have hb := eq_minValue_of_word?_neg hneg
    have hone : (1 : Int64).toInt = 1 := rfl
    have hmin := Int64.minValue_le_toInt a
    rw [minValue_toInt] at hb hmin
    simp only [add?_eq_ofInt, Option.bind_some]
    cases hsum : word? (a.toInt + Int64.maxValue.toInt) with
    | some v =>
      have hv := word?_eq_some_iff.mp hsum
      rw [maxValue_toInt] at hv
      rw [ofInt_of_word? hsum, add?_eq_ofInt, hone, hb]
      exact congrArg (fun n => some (ofInt n)) (by omega)
    | none =>
      have hnone := word?_eq_none_iff.mp hsum
      rw [minValue_toInt, maxValue_toInt] at hnone
      rw [ofInt_of_gt (by rw [maxValue_toInt]; omega), ofInt_of_gt (by rw [maxValue_toInt]; omega)]
      rfl

end Bound

namespace Interval

variable {i j : Interval} {lo hi : Bound} {a b w : Int64} {n : Int}

theorem between?_self (w : Int64) : between? (.finite w) (.finite w) = some (.constant w) := by
  rw [between?.eq_def, if_neg (lt_irrefl _), if_pos rfl]

/-- What lies between two bounds is what the interval between them holds, if they leave words
between them. -/
theorem mem_of_between? (h : between? lo hi = some i) (hlo : lo ≠ .posInf) (hhi : hi ≠ .negInf)
    (hn : n ∈ i) : lo.AtMost n ∧ hi.AtLeast n := by
  rw [between?.eq_def] at h
  split at h
  · cases h
  · split at h
    · rename_i heq
      subst heq
      cases lo with
      | negInf => exact absurd rfl hhi
      | finite v =>
        obtain rfl := Option.some.inj h
        rw [mem_constant] at hn
        exact ⟨Int.le_of_eq hn.symm, Int.le_of_eq hn⟩
      | posInf => exact absurd rfl hlo
    · split at h
      · rename_i hall
        rw [hall.1, hall.2]
        exact ⟨trivial, trivial⟩
      · obtain rfl := Option.some.inj h
        exact hn

/-! ## Known numbers -/

theorem add_constant (h : word? (a.toInt + b.toInt) = some w) :
    (constant a).add (constant b) = constant w := by
  rw [add]
  simp only [bounds?, Bound.add?_eq_ofInt, Bound.ofInt_of_word? h]
  rw [saturated]
  simp [between?_self]

theorem sub_constant (h : word? (a.toInt - b.toInt) = some w) :
    (constant a).sub (constant b) = constant w := by
  rw [sub]
  simp only [bounds?, Bound.sub?_eq_ofInt, Bound.ofInt_of_word? h]
  rw [saturated]
  simp [between?_self]

/-- To meet a known number leaves it, or nothing. -/
theorem constant_meet?_of_mem (h : w.toInt ∈ j) : (constant w).meet? j = some (constant w) := by
  rw [meet?.eq_def]
  split
  · rename_i hnone
    cases hnone
  · rfl
  · rename_i lo₁ hi₁ lo₂ hi₂ hw hj
    cases hw
    obtain ⟨hlo, hhi⟩ := (mem_iff_of_bounds? hj).mp h
    rw [max_eq_left (Bound.atMost_toInt_iff.mp hlo), min_eq_left (Bound.atLeast_toInt_iff.mp hhi)]
    exact between?_self w

theorem constant_meet?_of_notMem (h : w.toInt ∉ j) : (constant w).meet? j = none := by
  rw [meet?.eq_def]
  split
  · rename_i hnone
    cases hnone
  · rename_i hj
    rw [bounds?_eq_none_iff.mp hj] at h
    exact absurd mem_unknown h
  · rename_i lo₁ hi₁ lo₂ hi₂ hw hj
    cases hw
    rw [mem_iff_of_bounds? hj, Bound.atMost_toInt_iff, Bound.atLeast_toInt_iff] at h
    rw [between?.eq_def, if_pos]
    rcases not_and_or.mp h with hlt | hlt
    · exact min_lt_of_left_lt (lt_max_of_lt_right (not_le.mp hlt))
    · exact min_lt_of_right_lt (lt_max_of_lt_left (not_le.mp hlt))

/-- Only numbers that compare as told with some word between two known ones are found to. -/
theorem exists_holds_of_mem_comparable? {op : Comparison} {value : Interval}
    (ha : a.toInt ∈ value) (hb : b.toInt ∈ value)
    (h : comparable? op value (.finite a) (.finite b) = some j) (hop : op ≠ .neq)
    (hw : w.toInt ∈ j) : ∃ m : Int64, m.toInt ∈ value ∧ op.Holds w.toInt m.toInt := by
  cases op with
  | eq =>
    obtain rfl := Option.some.inj h
    exact ⟨w, hw, rfl⟩
  | neq => exact absurd rfl hop
  | lt =>
    rw [comparable?] at h
    split at h
    · cases h
    · rename_i hpred
      obtain ⟨-, hhigh⟩ := mem_of_between? h Bound.negInf_ne_posInf hpred hw
      exact ⟨b, hb, Bound.lt_of_atLeast_pred hhigh (Int.le_refl _)⟩
  | le => exact ⟨b, hb, (mem_of_between? h Bound.negInf_ne_posInf (Bound.finite_ne_negInf b) hw).2⟩
  | gt =>
    rw [comparable?] at h
    split at h
    · cases h
    · rename_i hnext
      obtain ⟨hlow, -⟩ := mem_of_between? h hnext Bound.negInf_ne_posInf.symm hw
      exact ⟨a, ha, Bound.lt_of_atMost_succ hnext hlow⟩
  | ge =>
    exact ⟨a, ha,
      (mem_of_between? h (Bound.finite_ne_posInf a) Bound.negInf_ne_posInf.symm hw).1⟩

end Interval

/-! ## Comparisons -/

namespace Store

variable {s : Store} {var : String}

theorem bind_eq_self {x : Value} (h : s.get? var = some x) : s.bind var x = s := by
  ext1 var'
  rw [get?_bind]
  split
  · rename_i heq
    rw [← heq, h]
  · rfl

/-- Where a known number is compared with another, nothing changes or nothing is left. -/
theorem assume?_constant {a b : Int64} (h : s.get? var = some (.scalar (.constant a)))
    (op : Comparison) :
    s.assume? var op (.constant b) = if op.Holds a.toInt b.toInt then some s else none := by
  by_cases hop : op = .neq
  · subst hop
    obtain ⟨hnone, hself⟩ := assume?_neq h nofun (.constant b)
    split
    · rename_i hne
      cases ht : s.assume? var .neq (.constant b) with
      | none =>
        obtain ⟨c, ha, hb⟩ := hnone.mp ht
        cases ha
        cases hb
        exact absurd rfl hne
      | some t => rw [hself t ht]
    · rename_i heq
      obtain rfl := Int64.toInt_inj.mp (not_not.mp heq)
      exact hnone.mpr ⟨a, rfl, rfl⟩
  · rw [assume?_eq_map h nofun rfl hop]
    by_cases hholds : op.Holds a.toInt b.toInt
    · obtain ⟨allowed, hallowed, hmem⟩ := Interval.exists_mem_comparable?
        (show (Interval.constant b).bounds? = some (.finite b, .finite b) from rfl) rfl hholds
      rw [if_pos hholds, hallowed, Option.bind_some, Interval.constant_meet?_of_mem hmem]
      exact congrArg some (bind_eq_self h)
    · rw [if_neg hholds]
      cases hallowed : Interval.comparable? op (.constant b) (.finite b) (.finite b) with
      | none => rfl
      | some allowed =>
        have hmem : a.toInt ∉ allowed := by
          intro hmem
          obtain ⟨m, hm, hop⟩ := Interval.exists_holds_of_mem_comparable? rfl rfl hallowed hop hmem
          exact hholds (Interval.mem_constant.mp hm ▸ hop)
        rw [Option.bind_some, Interval.constant_meet?_of_notMem hmem]
        rfl

end Store

/-! ## Verdicts -/

/-- A known index into a buffer of known size is in bounds or out of bounds, whatever the policy. -/
theorem StraddlePolicy.classify_constant (policy : StraddlePolicy) (size n : Int64) :
    policy.classify (.constant size) (.constant n) =
      if 0 ≤ n.toInt ∧ n.toInt < size.toInt then .inBounds else .outOfBounds := by
  have hzero : Bound.finite 0 ≤ Bound.finite n ↔ 0 ≤ n.toInt := Bound.finite_le_finite
  have hpred : Bound.finite n ≤ (Bound.finite size).pred ↔ n.toInt < size.toInt :=
    Bound.finite_le_pred
  rw [classify.eq_def]
  simp only [Interval.bounds?, hzero, hpred]
  split
  · rfl
  · rename_i hout
    rw [if_pos]
    rcases not_and_or.mp hout with hneg | hge
    · exact Or.inl (lt_of_not_ge (hneg ∘ hzero.mp))
    · exact Or.inr (lt_of_not_ge (hge ∘ hpred.mp))

end BufferBounds
