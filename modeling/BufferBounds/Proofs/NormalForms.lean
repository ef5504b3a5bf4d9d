import BufferBounds.Proofs.JoinLaws
import BufferBounds.Proofs.Reports

/-!
# Equal knowledge is equal data

Two normal intervals with the same integers are the same interval. For the lower end of an interval
is seen from its integers: it bounds them, and if it is `-∞` there are integers below every other. So
is the upper end, and a normal interval is known by its ends. Values and stores follow. As all that
propagation finds is normal, it never takes two spellings of one thing for two things.
-/

namespace BufferBounds

/-! ## Intervals -/

namespace Interval

variable {i j : Interval} {m n : Int}

/-- The normal intervals are the constants, the unknown one, and those between two ends in the right
order that are not infinite on the wrong side nor on both sides. -/
theorem normal_iff : i.Normal ↔ (∃ w, i = .constant w) ∨ i = .unknown ∨
    ∃ lo hi, i = .range lo hi ∧ lo < hi ∧ lo ≠ .posInf ∧ hi ≠ .negInf ∧
      ¬ (lo = .negInf ∧ hi = .posInf) := by
  constructor
  · intro h
    cases i with
    | constant w => exact Or.inl ⟨w, rfl⟩
    | range lo hi =>
      exact Or.inr (Or.inr ⟨lo, hi, rfl, h.1, h.low_ne_posInf, h.high_ne_negInf, h.2⟩)
    | unknown => exact Or.inr (Or.inl rfl)
  · rintro (⟨w, rfl⟩ | rfl | ⟨lo, hi, rfl, hlt, -, -, hends⟩)
    · exact trivial
    · exact trivial
    · exact ⟨hlt, hends⟩

/-- The integers of an interval are those between its ends. -/
theorem mem_iff_ends : n ∈ i ↔ i.low.AtMost n ∧ i.high.AtLeast n := by
  cases h : i.bounds? with
  | none =>
    rw [bounds?_eq_none_iff.mp h]
    exact iff_of_true trivial ⟨trivial, trivial⟩
  | some ends =>
    obtain ⟨hlow, hhigh⟩ := ends_of_bounds? h
    rw [mem_iff_of_bounds? h, hlow, hhigh]

/-- An interval without a lower end has integers below any other. -/
theorem Normal.exists_mem_lt (hi : i.Normal) (hlow : i.low = .negInf) (m : Int) :
    ∃ n ∈ i, n < m := by
  cases h : i.high with
  | negInf => exact absurd h hi.high_ne_negInf
  | finite w =>
    refine ⟨min (m - 1) w.toInt, ?_, by omega⟩
    simp [mem_iff_ends, hlow, h, Bound.AtMost, Bound.AtLeast]
  | posInf =>
    refine ⟨m - 1, ?_, by omega⟩
    simp [mem_iff_ends, hlow, h, Bound.AtMost, Bound.AtLeast]

/-- An interval without an upper end has integers above any other. -/
theorem Normal.exists_mem_gt (hi : i.Normal) (hhigh : i.high = .posInf) (m : Int) :
    ∃ n ∈ i, m < n := by
  cases h : i.low with
  | negInf =>
    refine ⟨m + 1, ?_, by omega⟩
    simp [mem_iff_ends, hhigh, h, Bound.AtMost, Bound.AtLeast]
  | finite w =>
    refine ⟨max (m + 1) w.toInt, ?_, by omega⟩
    simp [mem_iff_ends, hhigh, h, Bound.AtMost, Bound.AtLeast]
  | posInf => exact absurd h hi.low_ne_posInf

/-- A lower end that is a word is one of the integers. -/
theorem Normal.low_mem {w : Int64} (hi : i.Normal) (hlow : i.low = .finite w) : w.toInt ∈ i := by
  have hle := hi.low_le_high
  rw [hlow] at hle
  exact mem_iff_ends.mpr
    ⟨hlow ▸ Int.le_refl w.toInt, Bound.AtLeast.of_le (a := .finite w) (Int.le_refl _) hle⟩

/-- An upper end that is a word is one of the integers. -/
theorem Normal.high_mem {w : Int64} (hi : i.Normal) (hhigh : i.high = .finite w) :
    w.toInt ∈ i := by
  have hle := hi.low_le_high
  rw [hhigh] at hle
  exact mem_iff_ends.mpr
    ⟨Bound.AtMost.of_le (b := .finite w) (Int.le_refl _) hle, hhigh ▸ Int.le_refl w.toInt⟩

theorem Normal.exists_mem (hi : i.Normal) : ∃ n : Int, n ∈ i := by
  cases hlow : i.low with
  | negInf =>
    obtain ⟨n, hn, -⟩ := hi.exists_mem_lt hlow 0
    exact ⟨n, hn⟩
  | finite w => exact ⟨w.toInt, hi.low_mem hlow⟩
  | posInf => exact absurd hlow hi.low_ne_posInf

/-- A bound below all integers of a normal interval is below its lower end. -/
theorem Normal.le_low {b : Bound} (hi : i.Normal) (h : ∀ n : Int, n ∈ i → b.AtMost n) :
    b ≤ i.low := by
  cases hlow : i.low with
  | negInf =>
    cases b with
    | negInf => exact le_refl _
    | finite w =>
      obtain ⟨n, hn, hlt⟩ := hi.exists_mem_lt hlow w.toInt
      exact absurd hlt (Int.not_lt.mpr (h n hn))
    | posInf =>
      obtain ⟨n, hn⟩ := hi.exists_mem
      exact (h n hn).elim
  | finite w => exact (h _ (hi.low_mem hlow)).le (b := .finite w) (Int.le_refl _)
  | posInf => exact absurd hlow hi.low_ne_posInf

/-- A bound above all integers of a normal interval is above its upper end. -/
theorem Normal.high_le {b : Bound} (hi : i.Normal) (h : ∀ n : Int, n ∈ i → b.AtLeast n) :
    i.high ≤ b := by
  cases hhigh : i.high with
  | negInf => exact absurd hhigh hi.high_ne_negInf
  | finite w => exact Bound.AtMost.le (a := .finite w) (Int.le_refl _) (h _ (hi.high_mem hhigh))
  | posInf =>
    cases b with
    | negInf =>
      obtain ⟨n, hn⟩ := hi.exists_mem
      exact (h n hn).elim
    | finite w =>
      obtain ⟨n, hn, hlt⟩ := hi.exists_mem_gt hhigh w.toInt
      exact absurd hlt (Int.not_lt.mpr (h n hn))
    | posInf => exact le_refl _

/-- Normal intervals are equal exactly if they have the same integers. -/
theorem Normal.eq_iff_mem_iff (hi : i.Normal) (hj : j.Normal) :
    i = j ↔ ∀ n : Int, n ∈ i ↔ n ∈ j := by
  constructor
  · rintro rfl n
    exact Iff.rfl
  · intro h
    refine hi.ext hj (le_antisymm ?_ ?_) (le_antisymm ?_ ?_)
    · exact hj.le_low fun n hn => (mem_iff_ends.mp ((h n).mpr hn)).1
    · exact hi.le_low fun n hn => (mem_iff_ends.mp ((h n).mp hn)).1
    · exact hi.high_le fun n hn => (mem_iff_ends.mp ((h n).mp hn)).2
    · exact hj.high_le fun n hn => (mem_iff_ends.mp ((h n).mpr hn)).2

/-- Of the normal intervals only the unknown one has all integers. -/
theorem Normal.forall_mem_iff (hi : i.Normal) : (∀ n : Int, n ∈ i) ↔ i = .unknown := by
  rw [hi.eq_iff_mem_iff normal_unknown]
  exact forall_congr' fun n => (iff_true_right mem_unknown).symm

end Interval

/-! ## Values and stores -/

/-- The pointers know the same: the same sites, and sizes with the same integers. -/
def Pointer.Same : Pointer → Pointer → Prop
  | .buffer sites size, .buffer sites' size' =>
    (∀ site, site ∈ sites ↔ site ∈ sites') ∧ ∀ n : Int, n ∈ size ↔ n ∈ size'
  | .untracked, .untracked => True
  | _, _ => False

/-- The values know the same, of the same kind. -/
def Value.Same : Value → Value → Prop
  | .scalar i, .scalar j => ∀ n : Int, n ∈ i ↔ n ∈ j
  | .pointer p, .pointer q => p.Same q
  | _, _ => False

/-- The stores know the same of every variable. -/
def Store.Same (s t : Store) : Prop := ∀ var, Option.Rel Value.Same (s.get? var) (t.get? var)

theorem Pointer.Normal.eq_iff_same {p q : Pointer} (hp : p.Normal) (hq : q.Normal) :
    p = q ↔ p.Same q := by
  cases p with
  | buffer sites size =>
    cases q with
    | buffer sites' size' =>
      rw [buffer.injEq, Interval.Normal.eq_iff_mem_iff hp hq]
      exact and_congr_left' Std.ExtTreeSet.ext_mem_iff
    | untracked => exact iff_of_false nofun id
  | untracked =>
    cases q with
    | buffer sites' size' => exact iff_of_false nofun id
    | untracked => exact iff_of_true rfl trivial

theorem Value.Normal.eq_iff_same {x y : Value} (hx : x.Normal) (hy : y.Normal) :
    x = y ↔ x.Same y := by
  cases x with
  | scalar i =>
    cases y with
    | scalar j =>
      rw [scalar.injEq]
      exact Interval.Normal.eq_iff_mem_iff hx hy
    | pointer q => exact iff_of_false nofun id
  | pointer p =>
    cases y with
    | scalar j => exact iff_of_false nofun id
    | pointer q =>
      rw [pointer.injEq]
      exact Pointer.Normal.eq_iff_same hx hy

theorem Value.eq_iff_rel_same {x y : Option Value} (hx : ∀ z, x = some z → z.Normal)
    (hy : ∀ z, y = some z → z.Normal) : x = y ↔ Option.Rel Value.Same x y := by
  cases x with
  | none =>
    cases y with
    | none => exact iff_of_true rfl .none
    | some y => exact iff_of_false nofun nofun
  | some x =>
    cases y with
    | none => exact iff_of_false nofun nofun
    | some y =>
      rw [Option.some_inj, (hx x rfl).eq_iff_same (hy y rfl)]
      constructor
      · exact .some
      · rintro ⟨h⟩
        exact h

/-- Normal stores are equal exactly if they know the same. -/
theorem Store.Normal.eq_iff_same {s t : Store} (hs : s.Normal) (ht : t.Normal) :
    s = t ↔ s.Same t :=
  Store.ext_get?_iff.trans (forall_congr' fun var => Value.eq_iff_rel_same (hs var) (ht var))

/-! ## What the propagation compares -/

namespace Progress

variable {g : Flow} {settings : Settings} {p : Progress g} {s t : Store}

/-- A visit of the next pending place compares the two stores. -/
inductive Compares (settings : Settings) (p : Progress g) : Store → Store → Prop where
  /-- the entry store, and what it becomes where `incoming` arrives -/
  | entry {place : Nat} {pending : List Nat} {b : Block} {incoming old : Store}
      (hpending : p.pending = place :: pending) (hplace : g.order[place]? = some b)
      (hincoming : g.incomingStore? settings p.exits b.id = some incoming)
      (hold : p.entries[b.id]? = some old) :
      Compares settings p (old.join incoming) old
  /-- the exit store, and what the block makes of its new entry store -/
  | exit {place : Nat} {pending : List Nat} {b : Block} {incoming entry old : Store}
      {q : Progress g} (hpending : p.pending = place :: pending)
      (hplace : g.order[place]? = some b)
      (hincoming : g.incomingStore? settings p.exits b.id = some incoming)
      (hrenewal : Renewal settings (p.awaiting pending) b incoming entry q)
      (hold : p.exits[b.id]? = some old) :
      Compares settings p old (b.transfer settings entry)

theorem Compares.normal (h : Compares settings p s t) (hp : p.Normal) : s.Normal ∧ t.Normal := by
  have hall := normal_iff.mp hp
  cases h with
  | entry hpending hplace hincoming hold =>
    have hincoming := hall.incomingStore? Value.hereditary_normal hincoming
    exact ⟨Store.Normal.join (hp.entry _ _ hold) hincoming, hp.entry _ _ hold⟩
  | exit hpending hplace hincoming hrenewal hold =>
    have hincoming := hall.incomingStore? Value.hereditary_normal hincoming
    have hentry := hrenewal.all Value.hereditary_normal ⟨hall.entry, hall.exit⟩ hincoming
    exact ⟨hp.exit _ _ hold,
      Value.hereditary_normal.transfer (supplies_normal settings _) hentry⟩

theorem normal_advance (g : Flow) (settings : Settings) (n : Nat) :
    ((start g).advance settings n).Normal :=
  advance_induction (fun _ _ h hstep => h.step hstep) n _ (Normal.start g)

end Progress

/-! ## What is told -/

namespace Flow

variable {g : Flow} {settings : Settings}

theorem normal_of_mem_allocations {a : Allocation} (ha : a ∈ (g.propagate settings).allocations) :
    a.size.Normal := by
  obtain ⟨b, hb, entry, hentry, site, statement, s, htrace, ha⟩ := exists_of_mem_allocations ha
  refine Statement.normal_of_allocation? (Value.hereditary_normal.traceFrom ?_ ?_ htrace) ha
  · exact supplies_normal settings b.located
  · exact (Progress.Normal.finish g settings).entry _ _ hentry

end Flow

theorem Access.normal_size {a : Access} (h : ∀ p, a.pointer = some p → p.Normal) :
    (a.size?.getD .unknown).Normal := by
  rw [size?]
  cases hp : a.pointer with
  | none => exact trivial
  | some p =>
    cases p with
    | buffer sites size => exact h _ hp
    | untracked => exact trivial

theorem Analyzer.normal_of_mem_findings {analyzer : Analyzer} {g : Flow} {f : Finding}
    (hf : f ∈ (analyzer.reportOn g).findings) : f.index.Normal ∧ f.size.Normal := by
  rw [findings_reportOn, Finding.sort, List.mem_mergeSort] at hf
  obtain ⟨a, ha, hf⟩ := List.mem_filterMap.mp hf
  rw [Reporter.kept?] at hf
  split at hf
  · obtain rfl := Option.some.inj hf
    obtain ⟨hindex, hpointer⟩ := Flow.normal_of_mem_accesses ha
    exact ⟨hindex, Access.normal_size hpointer⟩
  · cases hf

namespace Flow

/-- **Equal knowledge is equal data.** Whatever the function and the settings are, all intervals in
the entry and exit stores, in the recorded buffers and accesses and in the findings of any checker
are normal. Normal intervals are equal exactly if they have the same integers, and only the unknown
one has all. And the stores that the propagation compares at any of its steps are equal exactly if
they know the same. -/
theorem normal_propagate (g : Flow) (settings : Settings) :
    let r := g.propagate settings
    (∀ (id : String) (s : Store), r.entries[id]? = some s → s.Normal) ∧
      (∀ (id : String) (s : Store), r.exits[id]? = some s → s.Normal) ∧
      (∀ a ∈ r.allocations, a.size.Normal) ∧
      (∀ a ∈ r.accesses, a.index.Normal ∧ ∀ p, a.pointer = some p → p.Normal) ∧
      (∀ analyzer : Analyzer, analyzer.settings = settings →
        ∀ f ∈ (analyzer.reportOn g).findings, f.index.Normal ∧ f.size.Normal) ∧
      (∀ i : Interval, i.Normal ↔ (∃ w, i = .constant w) ∨ i = .unknown ∨
        ∃ lo hi, i = .range lo hi ∧ lo < hi ∧ lo ≠ .posInf ∧ hi ≠ .negInf ∧
          ¬ (lo = .negInf ∧ hi = .posInf)) ∧
      (∀ i j : Interval, i.Normal → j.Normal → (i = j ↔ ∀ n : Int, n ∈ i ↔ n ∈ j)) ∧
      (∀ i : Interval, i.Normal → ((∀ n : Int, n ∈ i) ↔ i = .unknown)) ∧
      ∀ n s t, ((Progress.start g).advance settings n).Compares settings s t →
        (s = t ↔ s.Same t) := by
  have hnormal := Progress.Normal.finish g settings
  refine ⟨hnormal.entry, hnormal.exit, fun _ => normal_of_mem_allocations,
    fun _ => normal_of_mem_accesses, fun _ _ _ => Analyzer.normal_of_mem_findings,
    fun _ => Interval.normal_iff, fun _ _ => Interval.Normal.eq_iff_mem_iff,
    fun _ => Interval.Normal.forall_mem_iff, ?_⟩
  intro n s t h
  obtain ⟨hs, ht⟩ := h.normal (Progress.normal_advance g settings n)
  exact hs.eq_iff_same ht

end Flow

end BufferBounds
