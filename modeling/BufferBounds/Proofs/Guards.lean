import BufferBounds.Proofs.KnownNumbers
import BufferBounds.Proofs.NormalForms

/-!
# What a guard leaves

A comparison of a variable with words leaves exactly those words of the variable that compare as
told with one of them, and no store if there are none. Of the integers that are no words, which sums
may lead to, it loses none either, with one exception: nothing is taken to be greater than the
greatest word or less than the least.
-/

namespace BufferBounds

/-! ## Intervals -/

namespace Interval

variable {i j k current value : Interval} {op : Comparison} {lo hi : Bound} {a b w : Int64}
  {m n : Int}

/-- To meet a restriction leaves exactly the integers that it allows. -/
theorem Normal.mem_meet?_iff (hi : i.Normal) (hj : j.Normal) (hknown : i ≠ .unknown)
    (h : i.meet? j = some k) : n ∈ k ↔ n ∈ i ∧ n ∈ j := by
  constructor
  · intro hn
    rw [Interval.meet?] at h
    split at h
    · rename_i hnone
      exact absurd (bounds?_eq_none_iff.mp hnone) hknown
    · rename_i hnone
      obtain rfl := Option.some.inj h
      rw [bounds?_eq_none_iff.mp hnone]
      exact ⟨hn, mem_unknown⟩
    · rename_i lo₁ hi₁ lo₂ hi₂ hbi hbj
      obtain ⟨rfl, rfl⟩ := ends_of_bounds? hbi
      obtain ⟨rfl, rfl⟩ := ends_of_bounds? hbj
      have hlo : max i.low j.low ≠ .posInf :=
        max_rec' (· ≠ Bound.posInf) hi.low_ne_posInf hj.low_ne_posInf
      have hhi : min i.high j.high ≠ .negInf :=
        min_rec' (· ≠ Bound.negInf) hi.high_ne_negInf hj.high_ne_negInf
      obtain ⟨hlow, hhigh⟩ := mem_of_between? h hlo hhi hn
      rw [Bound.atMost_max] at hlow
      rw [Bound.atLeast_min] at hhigh
      exact ⟨mem_iff_ends.mpr ⟨hlow.1, hhigh.1⟩, mem_iff_ends.mpr ⟨hlow.2, hhigh.2⟩⟩
  · rintro ⟨hni, hnj⟩
    obtain ⟨k', hk', hn⟩ := exists_mem_meet? hni hnj
    rw [h] at hk'
    exact Option.some.inj hk' ▸ hn

theorem normal_of_comparable? (hv : value.Normal) (h : comparable? op value lo hi = some j) :
    j.Normal := by
  cases op with
  | eq => exact Option.some.inj h ▸ hv
  | neq => exact Option.some.inj h ▸ normal_unknown
  | lt =>
    rw [comparable?] at h
    split at h
    · cases h
    · exact normal_of_between? h
  | le => exact normal_of_between? h
  | gt =>
    rw [comparable?] at h
    split at h
    · cases h
    · exact normal_of_between? h
  | ge => exact normal_of_between? h

theorem normal_restriction (hc : current.Normal)
    (h : (comparable? op value lo hi).bind current.meet? = some k) : k.Normal := by
  obtain ⟨allowed, -, hmeet⟩ := Option.bind_eq_some_iff.mp h
  exact hc.meet? hmeet

theorem comparable?_of_beyondWords (h : BeyondWords op lo hi) :
    comparable? op value lo hi = none := by
  rcases h with ⟨rfl, rfl⟩ | ⟨rfl, rfl⟩
  · rfl
  · rfl

theorem ne_unknown_of_beyondWords (h : BeyondWords op i.low i.high) : i ≠ .unknown := by
  rintro rfl
  rcases h with ⟨-, heq⟩ | ⟨-, heq⟩
  · cases heq
  · cases heq

/-- The word is one of `current` that compares as told with a word of `value`. -/
def Selected (op : Comparison) (current value : Interval) (w : Int64) : Prop :=
  w.toInt ∈ current ∧ ∃ m : Int64, m.toInt ∈ value ∧ op.Holds w.toInt m.toInt

section Restriction

variable (hc : current.Normal) (hknown : current ≠ .unknown) (hv : value.Normal)
  (hb : value.bounds? = some (.finite a, .finite b)) (hop : op ≠ .neq)

include hc hknown hv hb hop

/-- What is left of `current` by a comparison with words are the words that are selected. -/
theorem mem_restriction_iff
    (h : (comparable? op value (.finite a) (.finite b)).bind current.meet? = some k) :
    w.toInt ∈ k ↔ Selected op current value w := by
  obtain ⟨allowed, hallowed, hmeet⟩ := Option.bind_eq_some_iff.mp h
  obtain ⟨hlow, hhigh⟩ := ends_of_bounds? hb
  rw [hc.mem_meet?_iff (normal_of_comparable? hv hallowed) hknown hmeet]
  refine and_congr_right fun _ => ⟨fun hw => ?_, fun hw => ?_⟩
  · exact exists_holds_of_mem_comparable? (hv.low_mem hlow) (hv.high_mem hhigh) hallowed hop hw
  · obtain ⟨m, hm, hholds⟩ := hw
    obtain ⟨allowed', hallowed', hw⟩ := exists_mem_comparable? hb hm hholds
    rw [hallowed] at hallowed'
    exact Option.some.inj hallowed' ▸ hw

/-- Nothing is left exactly if no word is selected. -/
theorem restriction_eq_none_iff :
    (comparable? op value (.finite a) (.finite b)).bind current.meet? = none ↔
      ¬ ∃ w, Selected op current value w := by
  constructor
  · rintro h ⟨w, hw, m, hm, hholds⟩
    obtain ⟨allowed, hallowed, hmem⟩ := exists_mem_comparable? hb hm hholds
    obtain ⟨k, hk, -⟩ := exists_mem_meet? hw hmem
    rw [hallowed, Option.bind_some, hk] at h
    cases h
  · intro hnone
    cases h : (comparable? op value (.finite a) (.finite b)).bind current.meet? with
    | none => rfl
    | some k =>
      -- a normal interval is not empty, and with an integer it has its nearest word
      obtain ⟨n, hn⟩ := (normal_restriction hc h).exists_mem
      have hword := saturate_mem hn
      rw [mem_restriction_iff hc hknown hv hb hop h] at hword
      exact absurd ⟨_, hword⟩ hnone

end Restriction

end Interval

/-! ## Stores -/

namespace Store

variable {s : Store} {var : String}

/-- The store `t` is `s` but for `var`, which holds a number with exactly these words. -/
structure Narrowed (s t : Store) (var : String) (words : Int64 → Prop) : Prop where
  /-- the other variables hold what they held -/
  others : ∀ var', var' ≠ var → t.get? var' = s.get? var'
  /-- the number is normal and has these words -/
  number : ∃ i, t.get? var = some (.scalar i) ∧ i.Normal ∧ ∀ w : Int64, w.toInt ∈ i ↔ words w

theorem narrowed_bind {i : Interval} {words : Int64 → Prop} (hi : i.Normal)
    (hwords : ∀ w : Int64, w.toInt ∈ i ↔ words w) :
    s.Narrowed (s.bind var (.scalar i)) var words where
  others var' hne := by rw [get?_bind, if_neg hne.symm]
  number := ⟨i, get?_bind_self .., hi, hwords⟩

/-- **Guards are exact on words.** Let the variable hold a known normal number, and let it be
compared with words. No store is left exactly if no word of the variable compares as told with one
of them; a store that is left differs only in the variable, which has exactly the words that do.
For being different, no store is left exactly if both are the same constant, and any other store is
left as it is. So is every store where the variable has no number that something is known of, or
where nothing is known of what it is compared with. -/
theorem assume?_exact (s : Store) (var : String) :
    (∀ current, s.get? var = some (.scalar current) → current.Normal → current ≠ .unknown →
      (∀ op value a b, op ≠ .neq → value.Normal → value.bounds? = some (.finite a, .finite b) →
        (s.assume? var op value = none ↔ ¬ ∃ w, Interval.Selected op current value w) ∧
          ∀ t, s.assume? var op value = some t →
            s.Narrowed t var (Interval.Selected op current value)) ∧
      ∀ value : Interval, value.Normal →
        (s.assume? var .neq value = none ↔ ∃ c, current = .constant c ∧ value = .constant c) ∧
          ∀ t, s.assume? var .neq value = some t → t = s) ∧
    (s.get? var = none ∨ (∃ p, s.get? var = some (.pointer p)) ∨
        s.get? var = some (.scalar .unknown) →
      ∀ op value, s.assume? var op value = some s) ∧
    ∀ op, s.assume? var op .unknown = some s := by
  refine ⟨fun current h hc hknown => ⟨?words, fun value _ => assume?_neq h hknown value⟩,
    ?unchanged, assume?_unknown s var⟩
  case words =>
    intro op value a b hop hv hb
    rw [assume?_eq_map h hknown hb hop, Option.map_eq_none_iff]
    refine ⟨Interval.restriction_eq_none_iff hc hknown hv hb hop, fun t ht => ?_⟩
    obtain ⟨i, hi, rfl⟩ := Option.map_eq_some_iff.mp ht
    exact narrowed_bind (Interval.normal_restriction hc hi) fun w =>
      Interval.mem_restriction_iff hc hknown hv hb hop hi
  case unchanged =>
    intro h
    refine assume?_of_forall fun i hi => ?_
    rw [hi] at h
    rcases h with h | ⟨p, h⟩ | h
    · cases h
    · cases h
    · cases h
      rfl

/-- Of the numbers up to ten only ten is greater than nine. -/
theorem assume?_exact_upToTen :
    let current := Interval.range .negInf (.finite 10)
    let s := (∅ : Store).bind "x" (.scalar current)
    let t := s.bind "x" (.scalar (.constant 10))
    current.Normal ∧ current ≠ .unknown ∧ s.assume? "x" .gt (.constant 9) = some t ∧
      s.Narrowed t "x" (Interval.Selected .gt current (.constant 9)) := by
  intro current s t
  have hc : current.Normal := ⟨by decide, by decide⟩
  have hknown : current ≠ .unknown := nofun
  have h : s.get? "x" = some (.scalar current) := get?_bind_self ..
  have ht : s.assume? "x" .gt (.constant 9) = some t :=
    Eq.trans (assume?_eq_map h hknown rfl (by decide)) rfl
  obtain ⟨-, hwords⟩ :=
    ((assume?_exact s "x").1 current h hc hknown).1 .gt (.constant 9) 9 9 (by decide) trivial rfl
  exact ⟨hc, hknown, ht, hwords t ht⟩

end Store

/-! ## Integers that are no words -/

/-- Of the comparison and its opposite the one that holds. -/
def Comparison.taken (op : Comparison) (m n : Int) : Comparison :=
  if op.Holds m n then op else op.negate

theorem Comparison.holds_taken (op : Comparison) (m n : Int) : (op.taken m n).Holds m n := by
  rw [taken]
  split
  · assumption
  · rename_i h
    exact holds_negate.mpr h

namespace Store

variable {s : Store} {var : String} {current value : Interval} {op : Comparison} {m n : Int}

/-- Where the comparison holds there is a store, and `n` is among what the variable may be there. -/
def Keeps (s : Store) (var : String) (op : Comparison) (value : Interval) (n : Int) : Prop :=
  ∃ t i, s.assume? var op value = some t ∧ t.get? var = some (.scalar i) ∧ n ∈ i

theorem keeps_of_eq_self (h : s.get? var = some (.scalar current)) (hn : n ∈ current)
    (hself : s.assume? var op value = some s) : s.Keeps var op value n :=
  ⟨s, current, hself, h, hn⟩

/-- An integer that compares as told is kept, unless the comparison asks for integers beyond the
words. -/
theorem keeps_of_holds (h : s.get? var = some (.scalar current)) (hknown : current ≠ .unknown)
    (hn : n ∈ current) (hm : m ∈ value) (hholds : op.Holds n m)
    (hwords : ¬ Interval.BeyondWords op value.low value.high) : s.Keeps var op value n := by
  by_cases hvalue : value = .unknown
  · subst hvalue
    exact keeps_of_eq_self h hn (assume?_unknown s var op)
  obtain ⟨t, ht, rfl | ⟨i, hi, rfl⟩⟩ := exists_assume?_of_holds h hknown
    (Interval.bounds?_eq_ends hvalue) hn hm hholds hwords
  · exact keeps_of_eq_self h hn ht
  · exact ⟨_, i, ht, get?_bind_self .., hi⟩

/-- Where the comparison asks for integers beyond the words there is no store. -/
theorem assume?_of_beyondWords (h : s.get? var = some (.scalar current))
    (hknown : current ≠ .unknown) (hwords : Interval.BeyondWords op value.low value.high) :
    s.assume? var op value = none := by
  have hb := Interval.bounds?_eq_ends (Interval.ne_unknown_of_beyondWords hwords)
  rw [assume?_eq_map h hknown hb ?neq, Interval.comparable?_of_beyondWords hwords]
  · rfl
  case neq =>
    rcases hwords with ⟨rfl, -⟩ | ⟨rfl, -⟩
    · nofun
    · nofun

/-- One more than the greatest word is known to be at least that word. That it is greater is taken
to be impossible. -/
theorem not_keeps_successor :
    let current := (Interval.constant Int64.maxValue).add (.constant 1)
    let value := Interval.constant Int64.maxValue
    let s := (∅ : Store).bind "x" (.scalar current)
    current.Normal ∧ current ≠ .unknown ∧ value.Normal ∧ s.get? "x" = some (.scalar current) ∧
      Int64.maxValue.toInt + 1 ∈ current ∧ Int64.maxValue.toInt ∈ value ∧
      Comparison.gt.Holds (Int64.maxValue.toInt + 1) Int64.maxValue.toInt ∧
      ¬ s.Keeps "x" .gt value (Int64.maxValue.toInt + 1) := by
  intro current value s
  have hknown : current ≠ .unknown := by decide
  have h : s.get? "x" = some (.scalar current) := get?_bind_self ..
  refine ⟨Interval.normal_add .., hknown, trivial, h, ?_, Interval.mem_constant.mpr rfl,
    Int.lt_succ _, ?_⟩
  · have hone : 1 ∈ Interval.constant 1 := Interval.mem_constant.mpr rfl
    exact Interval.add_mem_add (Interval.mem_constant.mpr rfl) hone
  · rintro ⟨t, i, ht, -⟩
    rw [assume?_of_beyondWords h hknown (Or.inl ⟨rfl, rfl⟩)] at ht
    cases ht

/-- **A guard loses no integer but beyond the words.** An integer of the variable and one of what it
is compared with are given. Of the comparison and its opposite the one that holds of the two leaves
a store, which keeps the integer, unless it asks for more than the greatest word or for less than
the least. Then the integer is no word, and there is no store. -/
theorem keeps_taken (h : s.get? var = some (.scalar current)) (hknown : current ≠ .unknown)
    (op : Comparison) (hn : n ∈ current) (hm : m ∈ value) :
    (¬ Interval.BeyondWords (op.taken n m) value.low value.high →
      s.Keeps var (op.taken n m) value n) ∧
    (Interval.BeyondWords (op.taken n m) value.low value.high →
      s.assume? var (op.taken n m) value = none ∧ word? n = none) := by
  have hholds := op.holds_taken n m
  refine ⟨keeps_of_holds h hknown hn hm hholds, fun hwords => ?_⟩
  refine ⟨assume?_of_beyondWords h hknown hwords, ?_⟩
  have hb := Interval.bounds?_eq_ends (Interval.ne_unknown_of_beyondWords hwords)
  exact Interval.word?_eq_none_of_beyondWords hb hm hholds hwords

/-- What is at least the greatest word may be greater than zero, even if it is no word. -/
theorem keeps_taken_noWord :
    let current := Interval.range (.finite Int64.maxValue) .posInf
    let s := (∅ : Store).bind "x" (.scalar current)
    current ≠ .unknown ∧ Int64.maxValue.toInt + 1 ∈ current ∧
      s.Keeps "x" (Comparison.le.taken (Int64.maxValue.toInt + 1) 0) (.constant 0)
        (Int64.maxValue.toInt + 1) := by
  intro current s
  have hknown : current ≠ .unknown := nofun
  have h : s.get? "x" = some (.scalar current) := get?_bind_self ..
  have hn : Int64.maxValue.toInt + 1 ∈ current := ⟨Int.le_add_of_nonneg_right (by decide), trivial⟩
  have hm : 0 ∈ Interval.constant 0 := Interval.mem_constant.mpr rfl
  refine ⟨hknown, hn, (keeps_taken h hknown .le hn hm).1 ?_⟩
  rintro (⟨-, heq⟩ | ⟨-, heq⟩)
  · exact absurd heq (by decide)
  · exact absurd heq (by decide)

end Store

end BufferBounds
