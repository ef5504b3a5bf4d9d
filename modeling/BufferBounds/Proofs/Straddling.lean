import BufferBounds.Proofs.JoinLaws
import BufferBounds.Proofs.Lockstep
import BufferBounds.Proofs.Reports
import BufferBounds.Proofs.Sorting
import BufferBounds.Proofs.Verdicts

/-!
# Reporting what may overflow

The policy for straddling intervals decides about single accesses and nothing else. Propagation does
not look at it. Where the cautious policy comes to a verdict, the other one comes to the same; and
where only the other one finds an access out of bounds, some index in the interval is negative or
too great for every size. So the findings under the one policy are those under the other, with some
more put in between.
-/

namespace BufferBounds

/-! ## Intervals reach to their ends -/

namespace Interval

variable {i : Interval} {lo hi : Bound} {w c : Int64}

theorem mem_of_ends (hb : i.bounds? = some (lo, hi)) (hlo : lo ≤ .finite w) (hhi : .finite w ≤ hi) :
    w.toInt ∈ i :=
  (mem_iff_of_bounds? hb).mpr
    ⟨Bound.AtMost.of_le (b := .finite w) (Int.le_refl _) hlo,
      Bound.AtLeast.of_le (a := .finite w) (Int.le_refl _) hhi⟩

/-- There is a word as low as any that the lower end does not exclude. -/
theorem Normal.exists_mem_le (h : i.Normal) (hb : i.bounds? = some (lo, hi))
    (hc : lo ≤ .finite c) : ∃ w : Int64, w.toInt ∈ i ∧ w.toInt ≤ c.toInt := by
  obtain ⟨rfl, rfl⟩ := ends_of_bounds? hb
  have hle := h.low_le_high
  rcases le_total (Bound.finite c) i.high with hhigh | hhigh
  · exact ⟨c, mem_of_ends hb hc hhigh, Int.le_refl _⟩
  · -- all of the interval lies below, so its upper end is a word
    cases hi : i.high with
    | negInf => exact absurd hi h.high_ne_negInf
    | finite b =>
      rw [hi] at hle hhigh
      exact ⟨b, mem_of_ends hb hle (le_of_eq hi.symm), Bound.finite_le_finite.mp hhigh⟩
    | posInf =>
      rw [hi] at hhigh
      exact absurd hhigh (Bound.not_posInf_le_finite c)

/-- There is a word as high as any that the upper end does not exclude. -/
theorem Normal.exists_mem_ge (h : i.Normal) (hb : i.bounds? = some (lo, hi))
    (hc : .finite c ≤ hi) : ∃ w : Int64, w.toInt ∈ i ∧ c.toInt ≤ w.toInt := by
  obtain ⟨rfl, rfl⟩ := ends_of_bounds? hb
  have hle := h.low_le_high
  rcases le_total i.low (Bound.finite c) with hlow | hlow
  · exact ⟨c, mem_of_ends hb hlow hc, Int.le_refl _⟩
  · cases lo : i.low with
    | negInf =>
      rw [lo] at hlow
      exact absurd hlow (Bound.not_finite_le_negInf c)
    | finite a =>
      rw [lo] at hle hlow
      exact ⟨a, mem_of_ends hb (le_of_eq lo) hle, Bound.finite_le_finite.mp hlow⟩
    | posInf => exact absurd lo h.low_ne_posInf

/-- An interval that starts below zero has a negative word. -/
theorem Normal.exists_mem_of_lt_zero (h : i.Normal) (hb : i.bounds? = some (lo, hi))
    (hlt : lo < .finite 0) : ∃ w : Int64, w.toInt ∈ i ∧ w.toInt < 0 := by
  have hle : lo ≤ .finite (-1) := by
    cases lo with
    | negInf => exact Bound.negInf_le _
    | finite a =>
      have hneg : ¬ (0 : Int64).toInt ≤ a.toInt := fun h0 =>
        absurd hlt (not_lt.mpr (Bound.finite_le_finite.mpr h0))
      rw [Int64.toInt_zero] at hneg
      refine Bound.finite_le_finite.mpr ?_
      rw [show (-1 : Int64).toInt = -1 from rfl]
      omega
    | posInf => exact absurd hlt (not_lt.mpr (Bound.le_posInf _))
  obtain ⟨w, hw, hneg⟩ := h.exists_mem_le hb hle
  rw [show (-1 : Int64).toInt = -1 from rfl] at hneg
  exact ⟨w, hw, by omega⟩

/-- An interval that goes on beyond the last index of a buffer has a word too great for its size. -/
theorem Normal.exists_mem_of_pred_lt (h : i.Normal) (hb : i.bounds? = some (lo, hi)) {b : Bound}
    (hlt : b.pred < hi) : ∃ w : Int64, w.toInt ∈ i ∧ ∀ s, b.AtLeast s → s ≤ w.toInt := by
  obtain ⟨-, rfl⟩ := ends_of_bounds? hb
  cases b with
  | negInf =>
    -- nothing has this size
    have hmin : Bound.finite Int64.minValue ≤ i.high := by
      cases hi : i.high with
      | negInf => exact absurd hi h.high_ne_negInf
      | finite b => exact Bound.finite_le_finite.mpr (Int64.minValue_le_toInt b)
      | posInf => exact Bound.le_posInf _
    obtain ⟨w, hw, -⟩ := h.exists_mem_ge hb hmin
    exact ⟨w, hw, fun s hs => hs.elim⟩
  | finite c =>
    have hc : Bound.finite c ≤ i.high := by
      cases hi : i.high with
      | negInf => exact absurd hi h.high_ne_negInf
      | finite b =>
        rw [hi] at hlt
        by_contra hbc
        rw [Bound.finite_le_finite, not_le] at hbc
        -- the last index would be as great as the end of the interval
        have hpred : (Bound.finite c).pred.AtLeast b.toInt :=
          Bound.AtLeast.pred (Int.le_refl c.toInt) hbc (Int64.minValue_le_toInt b)
        have hle : (Bound.finite b) ≤ (Bound.finite c).pred := Bound.AtMost.le (Int.le_refl _) hpred
        exact absurd hlt (not_lt.mpr hle)
      | posInf => exact Bound.le_posInf _
    obtain ⟨w, hw, hcw⟩ := h.exists_mem_ge hb hc
    exact ⟨w, hw, fun s hs => Int.le_trans hs hcw⟩
  | posInf => exact absurd hlt (not_lt.mpr (Bound.le_posInf _))

end Interval

/-! ## Verdicts under the two policies -/

/-- Some index that the access may have is negative or too great for every size of the buffer. -/
def Access.MayOverflow (a : Access) : Prop :=
  ∃ size, a.size? = some size ∧
    ∃ w : Int64, w.toInt ∈ a.index ∧ (w.toInt < 0 ∨ ∀ s ∈ size, s ≤ w.toInt)

/-- The two policies come to the same verdict, or only one comes to any, and has a reason for it. -/
theorem StraddlePolicy.classify_cases (size : Interval) {index : Interval} (h : index.Normal) :
    reportMayOverflow.classify size index = indeterminate.classify size index ∨
      (indeterminate.classify size index = .indeterminate ∧
        reportMayOverflow.classify size index = .outOfBounds ∧
        ∃ w : Int64, w.toInt ∈ index ∧ (w.toInt < 0 ∨ ∀ s ∈ size, s ≤ w.toInt)) := by
  rw [classify, classify]
  split
  · rename_i sizeMin sizeMax indexMin indexMax hsize hindex
    simp only
    split
    · exact Or.inl rfl
    · split
      · exact Or.inl rfl
      · split
        · rename_i hout
          refine Or.inr ⟨rfl, rfl, ?_⟩
          rcases hout with hlt | hlt
          · obtain ⟨w, hw, hgreat⟩ := h.exists_mem_of_pred_lt hindex hlt
            exact ⟨w, hw, Or.inr fun s hs => hgreat s ((Interval.mem_iff_of_bounds? hsize).mp hs).2⟩
          · obtain ⟨w, hw, hneg⟩ := h.exists_mem_of_lt_zero hindex hlt
            exact ⟨w, hw, Or.inl hneg⟩
        · exact Or.inl rfl
  · exact Or.inl rfl

namespace Checker

theorem classify_cases {a : Access} (h : a.index.Normal) :
    (bounds .reportMayOverflow).classify a = (bounds .indeterminate).classify a ∨
      ((bounds .indeterminate).classify a = .indeterminate ∧
        (bounds .reportMayOverflow).classify a = .outOfBounds ∧ a.MayOverflow) := by
  rw [bounds_classify, bounds_classify]
  rcases StraddlePolicy.classify_cases (a.size?.getD .unknown) h with
    heq | ⟨hundecided, hout, w, hw, hbad⟩
  · exact Or.inl heq
  · cases hsize : a.size? with
    | none =>
      rw [hsize] at hout
      have hne : StraddlePolicy.reportMayOverflow.classify .unknown a.index ≠ .indeterminate :=
        fun hundecided => nomatch hout.symm.trans hundecided
      exact absurd rfl (StraddlePolicy.known_of_classify_ne hne).1
    | some size =>
      rw [hsize] at hundecided hout hbad
      exact Or.inr ⟨hundecided, hout, size, hsize, w, hw, hbad⟩

end Checker

/-! ## Findings under the two policies -/

/-- Does the finding stand without counting straddling accesses as out of bounds? -/
def Finding.decided (f : Finding) : Bool :=
  StraddlePolicy.indeterminate.classify f.size f.index ≠ .indeterminate

theorem Finding.decided_ofAccess (a : Access) (verdict : Verdict) :
    (ofAccess a verdict).decided = decide ((Checker.bounds .indeterminate).classify a ≠
      .indeterminate) := by
  rw [Checker.bounds_classify]
  rfl

/-- Whether a finding under the one policy is one under the other too can be seen from it. -/
theorem Reporter.kept?_eq_filter (reportInBounds : Bool) {a : Access} (h : a.index.Normal) :
    kept? reportInBounds a ((Checker.bounds .indeterminate).classify a) =
      (kept? reportInBounds a ((Checker.bounds .reportMayOverflow).classify a)).filter
        Finding.decided := by
  rcases Checker.classify_cases h with heq | ⟨hundecided, hout, -⟩
  · rw [heq, kept?]
    split
    · rename_i hkeeps
      have hdecided : (Checker.bounds .indeterminate).classify a ≠ .indeterminate := by
        intro hundecided
        rw [hundecided] at hkeeps
        cases hkeeps
      rw [Option.filter_some_pos]
      rw [Finding.decided_ofAccess, decide_eq_true_eq]
      exact hdecided
    · rfl
  · rw [hundecided, hout]
    change none = Option.filter _ (some _)
    rw [Option.filter_some_neg]
    rw [Finding.decided_ofAccess, hundecided]
    decide

section

variable {accesses : List Access} (h : ∀ access ∈ accesses, access.index.Normal)
include h

/-- Of the findings under the one policy, those under the other are the ones that stand anyway. -/
theorem Reporter.filterMap_kept? (reportInBounds : Bool) :
    (accesses.filterMap fun access =>
        kept? reportInBounds access ((Checker.bounds .indeterminate).classify access)) =
      (accesses.filterMap fun access =>
        kept? reportInBounds access ((Checker.bounds .reportMayOverflow).classify access)).filter
          Finding.decided := by
  rw [List.filter_filterMap]
  exact List.filterMap_congr fun access haccess => kept?_eq_filter reportInBounds (h access haccess)

/-- A finding that does not stand anyway is about an access that may overflow. -/
theorem Reporter.of_decided_eq_false {reportInBounds : Bool} {f : Finding}
    (hf : f ∈ accesses.filterMap fun access =>
      kept? reportInBounds access ((Checker.bounds .reportMayOverflow).classify access))
    (hdecided : f.decided = false) :
    f.verdict = .outOfBounds ∧ ∃ access ∈ accesses, f = .ofAccess access .outOfBounds ∧
      (Checker.bounds .indeterminate).classify access = .indeterminate ∧ access.MayOverflow := by
  obtain ⟨access, haccess, hkept⟩ := List.mem_filterMap.mp hf
  rcases Checker.classify_cases (h access haccess) with heq | ⟨hundecided, hout, hmay⟩
  · -- the other policy keeps it too
    have hfilter := kept?_eq_filter reportInBounds (h access haccess)
    rw [← heq, hkept, Option.filter_some_neg (by simp [hdecided])] at hfilter
    cases hfilter
  · rw [hout] at hkept
    obtain rfl : Finding.ofAccess access .outOfBounds = f := Option.some.inj hkept
    exact ⟨rfl, access, haccess, rfl, hundecided, hmay⟩

theorem Checker.count_inBounds :
    (accesses.map (Checker.bounds .reportMayOverflow).classify).count .inBounds =
      (accesses.map (Checker.bounds .indeterminate).classify).count .inBounds := by
  rw [List.count_eq_countP, List.count_eq_countP, List.countP_map, List.countP_map]
  refine List.countP_congr fun access haccess => ?_
  rcases Checker.classify_cases (h access haccess) with heq | ⟨hundecided, hout, -⟩
  · rw [Function.comp_apply, Function.comp_apply, heq]
  · rw [Function.comp_apply, Function.comp_apply, hundecided, hout]
    decide

end

/-! ## Settings that differ in the policy -/

/-- The policy does not matter for what propagation finds. -/
theorem Flow.propagate_of_straddlePolicy (settings : Settings) (policy : StraddlePolicy)
    (g : Flow) : g.propagate { settings with straddlePolicy := policy } = g.propagate settings := by
  have hstep : ∀ p : Progress g,
      p.step? { settings with straddlePolicy := policy } = p.step? settings := fun _ => rfl
  have hallocators :
      { settings with straddlePolicy := policy }.allocators = settings.allocators := rfl
  exact propagate_of_finish_eq hallocators (Progress.finish_congr hstep _)

namespace Analyzer

/-- **Reporting what may overflow only adds findings.** Take settings under which nothing is decided
about straddling intervals, and change only that. Then a function has the same allocations, the same
statistics and as many accesses as before, of which as many are in bounds. Its findings before are
found again, in their order, and what is new is out of bounds: an access of which nothing was
decided before, and of which some index is negative or too great for every size of its buffer. -/
theorem mayOverflow_adds {settings : Settings}
    (hpolicy : settings.straddlePolicy = .indeterminate) (hvalid : settings.fault? = none)
    {f : Function} {g : Flow} (hf : Flow.ofFunction f = .ok g) :
    ∃ a a' r r',
      ofSettings settings = .ok a ∧
      ofSettings { settings with straddlePolicy := .reportMayOverflow } = .ok a' ∧
      a.analyzeFunction f = .ok r ∧ a'.analyzeFunction f = .ok r' ∧
      r'.allocations = r.allocations ∧ r'.stats = r.stats ∧
      r'.summary.inBounds = r.summary.inBounds ∧ r'.summary.total = r.summary.total ∧
      r.findings.Sublist r'.findings ∧
      ∃ added, (r.findings ++ added).Perm r'.findings ∧
        ∀ x ∈ added, x.verdict = .outOfBounds ∧
          ∃ access ∈ (g.propagate settings).accesses, x = .ofAccess access .outOfBounds ∧
            a.checker.classify access = .indeterminate ∧ access.MayOverflow := by
  obtain rfl := Flow.ofFunction_eq_ok_iff.mp hf
  have hnormal : ∀ access ∈ (g.propagate settings).accesses, access.index.Normal :=
    fun access haccess => (Flow.normal_of_mem_accesses haccess).1
  let a : Analyzer := ⟨settings, hvalid, .bounds .indeterminate⟩
  let a' : Analyzer :=
    ⟨{ settings with straddlePolicy := .reportMayOverflow }, hvalid, .bounds .reportMayOverflow⟩
  have hsame : g.propagate a'.settings = g.propagate settings :=
    g.propagate_of_straddlePolicy settings .reportMayOverflow
  have hfindings : (a.reportOn g).findings = (a'.reportOn g).findings.filter Finding.decided := by
    rw [findings_reportOn, findings_reportOn, hsame, Finding.filter_sort,
      ← Reporter.filterMap_kept? hnormal]
  have ha : ofSettings settings = .ok a := by
    rw [ofSettings_of_fault?_eq_none hvalid, hpolicy]
  have ha' : ofSettings { settings with straddlePolicy := .reportMayOverflow } = .ok a' :=
    ofSettings_of_fault?_eq_none a'.valid
  refine ⟨a, a', a.reportOn g, a'.reportOn g, ha, ha',
    a.analyzeFunction_function g, a'.analyzeFunction_function g, ?_, ?_, ?_, ?_, ?_,
    (a'.reportOn g).findings.filter (!Finding.decided ·), ?_, ?_⟩
  · change (g.propagate a'.settings).allocations = _
    rw [hsame]
    rfl
  · change Stats.mk _ (g.propagate a'.settings).entries.size _ _ = _
    rw [hsame]
    rfl
  · rw [summary_reportOn, summary_reportOn, hsame, Tally.inBounds_foldl_count,
      Tally.inBounds_foldl_count, Checker.count_inBounds hnormal]
  · rw [summary_reportOn, summary_reportOn, hsame, Tally.total_foldl_count,
      Tally.total_foldl_count, List.length_map, List.length_map]
  · rw [hfindings]
    exact List.filter_sublist
  · rw [hfindings]
    exact List.filter_append_perm _ _
  · intro x hx
    obtain ⟨hmem, hdecided⟩ := List.mem_filter.mp hx
    rw [findings_reportOn, hsame, Finding.sort, List.mem_mergeSort] at hmem
    exact Reporter.of_decided_eq_false hnormal hmem (by simpa using hdecided)

/-- A function that uses the second or the sixteenth element of a buffer of ten. -/
def guess : Flow where
  function :=
    { name := "guess"
      entry := "start"
      blocks :=
        [ ⟨"start", [.assign "p" (.call "malloc" [.const 10]) ⟨1, 1, 1, 14⟩],
            .branch none "small" "great"⟩,
          ⟨"small", [.assign "i" (.const 1) ⟨3, 3, 3, 7⟩], .goto "use"⟩,
          ⟨"great", [.assign "i" (.const 15) ⟨5, 3, 5, 8⟩], .goto "use"⟩,
          ⟨"use", [.access "p" (.var "i") ⟨7, 1, 7, 4⟩], .exit⟩ ] }
  wellFormed := (Function.fault?_eq_none_iff _).mp (by decide)
  order := _
  order_eq := rfl

/-- Its only access straddles the end of the buffer. -/
theorem mayOverflow_adds_guess :
    ((guess.propagate default).accesses.map fun access =>
        ((Checker.bounds .indeterminate).classify access,
          (Checker.bounds .reportMayOverflow).classify access)) =
      [(.indeterminate, .outOfBounds)] ∧
    ∃ a a' r r', ofSettings default = .ok a ∧
      ofSettings { (default : Settings) with straddlePolicy := .reportMayOverflow } = .ok a' ∧
      a.analyzeFunction guess.function = .ok r ∧ a'.analyzeFunction guess.function = .ok r' ∧
      r.findings.Sublist r'.findings := by
  refine ⟨by decide +kernel, ?_⟩
  obtain ⟨a, a', r, r', ha, ha', hr, hr', -, -, -, -, hsublist, -⟩ :=
    @mayOverflow_adds default rfl (by decide +kernel) guess.function guess
      (Flow.ofFunction_eq_ok_iff.mpr rfl)
  exact ⟨a, a', r, r', ha, ha', hr, hr', hsublist⟩

end Analyzer

end BufferBounds
