import BufferBounds.Analysis
import BufferBounds.Proofs.Reachability

/-!
# Reports

What a report says, without the reporter that it is collected in: its findings are those that are
kept of the accesses in their order, sorted, and its counts are the counts of their verdicts.
-/

namespace BufferBounds

/-! ## Verdicts on accesses -/

/-- A buffer that is not tracked counts as one of unknown size. -/
theorem Checker.bounds_classify (policy : StraddlePolicy) (a : Access) :
    (bounds policy).classify a = policy.classify (a.size?.getD .unknown) a.index := by
  simp only [bounds]
  cases a.size? <;> rfl

/-! ## Reporters -/

namespace Reporter

/-- What the reporter keeps of an access with this verdict. -/
def kept? (reportInBounds : Bool) (access : Access) (verdict : Verdict) : Option Finding :=
  if (fresh reportInBounds).keeps verdict then some (.ofAccess access verdict) else none

theorem pending_accept (r : Reporter) (access : Access) (verdict : Verdict) :
    (r.accept access verdict).pending =
      r.pending ++ (kept? r.reportInBounds access verdict).toList := by
  have hkeeps : (fresh r.reportInBounds).keeps verdict = r.keeps verdict := by
    cases verdict <;> rfl
  rw [accept, kept?, hkeeps]
  split
  · rfl
  · exact (List.append_nil _).symm

theorem foldl_accept (classify : Access → Verdict) (accesses : List Access) (r : Reporter) :
    accesses.foldl (fun r access => r.accept access (classify access)) r =
      { reportInBounds := r.reportInBounds
        pending := r.pending ++ accesses.filterMap fun access =>
          kept? r.reportInBounds access (classify access)
        tally := (accesses.map classify).foldl Tally.count r.tally } := by
  induction accesses generalizing r with
  | nil => simp
  | cons access accesses ih =>
    rw [List.foldl_cons, ih, pending_accept, List.append_assoc]
    simp only [accept, List.map_cons, List.foldl_cons, List.filterMap_cons]
    cases kept? r.reportInBounds access (classify access) <;> rfl

end Reporter

namespace Tally

theorem inBounds_foldl_count (verdicts : List Verdict) (t : Tally) :
    (verdicts.foldl count t).inBounds = t.inBounds + verdicts.count .inBounds := by
  induction verdicts generalizing t with
  | nil => rfl
  | cons verdict verdicts ih =>
    rw [List.foldl_cons, ih, List.count_cons]
    cases verdict with
    | inBounds =>
      simp only [count, beq_self_eq_true, if_true]
      omega
    | outOfBounds => rfl
    | indeterminate => rfl

theorem total_foldl_count (verdicts : List Verdict) (t : Tally) :
    (verdicts.foldl count t).total = t.total + verdicts.length := by
  induction verdicts generalizing t with
  | nil => rfl
  | cons verdict verdicts ih =>
    have hone : (t.count verdict).total = t.total + 1 := by
      cases verdict <;> simp only [count, total] <;> omega
    rw [List.foldl_cons, ih, hone, List.length_cons]
    omega

end Tally

/-! ## Analyzers -/

namespace Analyzer

theorem ofSettings_of_fault?_eq_none {settings : Settings} (h : settings.fault? = none) :
    ofSettings settings = .ok ⟨settings, h, .bounds settings.straddlePolicy⟩ := by
  rw [ofSettings]
  split
  · rename_i error herror
    rw [h] at herror
    cases herror
  · rfl

theorem findings_reportOn (a : Analyzer) (g : Flow) :
    (a.reportOn g).findings =
      Finding.sort ((g.propagate a.settings).accesses.filterMap fun access =>
        Reporter.kept? a.settings.reportInBounds access (a.checker.classify access)) := by
  simp only [reportOn, Reporter.foldl_accept, Reporter.finish]
  rfl

theorem summary_reportOn (a : Analyzer) (g : Flow) :
    (a.reportOn g).summary =
      ((g.propagate a.settings).accesses.map a.checker.classify).foldl Tally.count .zero := by
  simp only [reportOn, Reporter.foldl_accept]
  rfl

theorem analyzeFunction_function (a : Analyzer) (g : Flow) :
    a.analyzeFunction g.function = .ok (a.reportOn g) := by
  rw [analyzeFunction, Flow.ofFunction_eq_ok_iff.mpr rfl]

end Analyzer

end BufferBounds
