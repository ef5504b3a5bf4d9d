import Mathlib.Algebra.GroupWithZero.Nat
import BufferBounds.Proofs.FlowGraphs
import BufferBounds.Proofs.Reports
import BufferBounds.Proofs.Sorting

/-!
# Reports on programs

A program is analysed function by function, and what is told of it is put together from what is told
of each. The first function that is no flow graph decides that there is no report. If there is one,
its findings are those that the functions keep, one function after the other and in each in the
order of its accesses, sorted once and stably. That each function sorts its own findings first does
not show, and neither does it matter whether a program is analysed at once or in two parts.
-/

namespace BufferBounds

/-! ## Lists of results -/

section Results

variable {ε α β : Type} {f : α → Except ε β} {x : α} {l : List α}

theorem mapM_cons_of_ok {r : β} (h : f x = .ok r) :
    (x :: l).mapM f = (l.mapM f).map (r :: ·) := by
  rw [List.mapM_cons, h]
  cases l.mapM f <;> rfl

theorem mapM_cons_of_error {error : ε} (h : f x = .error error) :
    (x :: l).mapM f = .error error := by
  rw [List.mapM_cons, h]
  rfl

theorem mapM_eq_ok_iff {results : List β} :
    l.mapM f = .ok results ↔ l.map f = results.map .ok := by
  induction l generalizing results with
  | nil => cases results <;> simp [pure, Except.pure]
  | cons x l ih =>
    cases hx : f x with
    | error error => cases results <;> simp [mapM_cons_of_error hx, hx]
    | ok r =>
      rw [mapM_cons_of_ok hx, List.map_cons, hx]
      cases results with
      | nil => cases l.mapM f <;> simp [Except.map]
      | cons r' results =>
        rw [List.map_cons, List.cons.injEq, Except.ok.injEq, ← ih]
        cases l.mapM f <;> simp [Except.map]

/-- The first error is the one that is told. -/
theorem mapM_eq_error_iff {error : ε} :
    l.mapM f = .error error ↔
      ∃ before x after, l = before ++ x :: after ∧ (∀ y ∈ before, ∃ r, f y = .ok r) ∧
        f x = .error error := by
  induction l with
  | nil => simp [pure, Except.pure]
  | cons x l ih =>
    cases hx : f x with
    | error e =>
      rw [mapM_cons_of_error hx]
      constructor
      · intro h
        obtain rfl := Except.error.inj h
        exact ⟨[], x, l, rfl, by simp, hx⟩
      · rintro ⟨before, y, after, heq, hbefore, hy⟩
        cases before with
        | nil =>
          obtain ⟨rfl, -⟩ := List.cons.inj heq
          rw [Except.error.inj (hx.symm.trans hy)]
        | cons z before =>
          obtain ⟨rfl, -⟩ := List.cons.inj heq
          obtain ⟨r, hr⟩ := hbefore _ (List.mem_cons_self ..)
          cases hx.symm.trans hr
    | ok r =>
      have hmap : (l.mapM f).map (r :: ·) = .error error ↔ l.mapM f = .error error := by
        cases l.mapM f <;> simp [Except.map]
      rw [mapM_cons_of_ok hx, hmap, ih]
      constructor
      · rintro ⟨before, y, after, rfl, hbefore, hy⟩
        exact ⟨x :: before, y, after, rfl, List.forall_mem_cons.mpr ⟨⟨r, hx⟩, hbefore⟩, hy⟩
      · rintro ⟨before, y, after, heq, hbefore, hy⟩
        cases before with
        | nil =>
          obtain ⟨rfl, -⟩ := List.cons.inj heq
          cases hx.symm.trans hy
        | cons z before =>
          obtain ⟨-, rfl⟩ := List.cons.inj heq
          exact ⟨before, y, after, rfl, (List.forall_mem_cons.mp hbefore).2, hy⟩

end Results

/-! ## Counts -/

namespace Tally

/-- A field that adds up does so over a list of reports. -/
theorem field_foldl_add {field : Tally → Nat} (h : ∀ t u, field (t.add u) = field t + field u)
    (reports : List FunctionReport) (t : Tally) :
    field (reports.foldl (fun total report => total.add report.summary) t) =
      field t + (reports.map fun report => field report.summary).sum := by
  induction reports generalizing t with
  | nil => rfl
  | cons report reports ih =>
    rw [List.foldl_cons, ih, h, List.map_cons, List.sum_cons, Nat.add_assoc]

theorem field_foldl_add_zero (field : Tally → Nat)
    (hadd : ∀ t u, field (t.add u) = field t + field u) (hzero : field .zero = 0)
    (reports : List FunctionReport) :
    field (reports.foldl (fun total report => total.add report.summary) .zero) =
      (reports.map fun report => field report.summary).sum := by
  rw [field_foldl_add hadd, hzero, Nat.zero_add]

theorem foldl_add_eq (reports : List FunctionReport) (t : Tally) :
    reports.foldl (fun total report => total.add report.summary) t =
      t.add (reports.foldl (fun total report => total.add report.summary) .zero) := by
  have hsum : ∀ {field : Tally → Nat}, (∀ t u, field (t.add u) = field t + field u) →
      field .zero = 0 →
      field (reports.foldl (fun total report => total.add report.summary) t) =
        field t + field (reports.foldl (fun total report => total.add report.summary) .zero) := by
    intro field hadd hzero
    rw [field_foldl_add hadd, field_foldl_add_zero field hadd hzero]
  rw [add, ← hsum (fun _ _ => rfl) rfl, ← hsum (fun _ _ => rfl) rfl, ← hsum (fun _ _ => rfl) rfl]

end Tally

/-! ## Functions -/

namespace Analyzer

variable {a : Analyzer} {f : Function} {functions : List Function}

/-- The findings that are kept of the accesses of a function, in the order of the accesses. -/
def kept (a : Analyzer) (f : Function) : List Finding :=
  match Flow.ofFunction f with
  | .ok g => (g.propagate a.settings).accesses.filterMap fun access =>
      Reporter.kept? a.settings.reportInBounds access (a.checker.classify access)
  | .error _ => []

theorem findings_reportOn_eq_sort_kept (a : Analyzer) (g : Flow) :
    (a.reportOn g).findings = Finding.sort (a.kept g.function) := by
  rw [findings_reportOn, kept, Flow.ofFunction_eq_ok_iff.mpr rfl]

theorem analyzeFunction_eq_ok_iff {report : FunctionReport} :
    a.analyzeFunction f = .ok report ↔ ∃ g : Flow, g.function = f ∧ a.reportOn g = report := by
  constructor
  · intro h
    rw [analyzeFunction] at h
    split at h
    · rename_i g hg
      exact ⟨g, Flow.ofFunction_eq_ok_iff.mp hg, Except.ok.inj h⟩
    · cases h
  · rintro ⟨g, rfl, rfl⟩
    exact a.analyzeFunction_function g

theorem analyzeFunction_eq_error_iff {error : AnalysisError} :
    a.analyzeFunction f = .error error ↔ ∃ fault, f.fault? = some fault ∧ error = .flow fault := by
  simp only [← Flow.ofFunction_eq_error_iff, analyzeFunction]
  cases Flow.ofFunction f with
  | ok g => simp
  | error fault => simp [eq_comm]

/-- Exactly the flow graphs are reported on. -/
theorem exists_analyzeFunction_iff :
    (∃ report, a.analyzeFunction f = .ok report) ↔ f.WellFormed := by
  simp only [analyzeFunction_eq_ok_iff]
  constructor
  · rintro ⟨report, g, rfl, -⟩
    exact g.wellFormed
  · intro h
    exact ⟨_, ⟨f, h, f.visitOrder, rfl⟩, rfl, rfl⟩

/-! ## Programs -/

theorem analyzeProgram_eq_ok_iff {report : ProgramReport} :
    a.analyzeProgram functions = .ok report ↔
      ∃ reports, functions.map a.analyzeFunction = reports.map .ok ∧
        report = .ofFunctions reports := by
  simp only [← mapM_eq_ok_iff, analyzeProgram]
  cases functions.mapM a.analyzeFunction <;> simp [Except.map, eq_comm]

/-- A report is told exactly if there is one on every function. -/
theorem exists_analyzeProgram_iff :
    (∃ report, a.analyzeProgram functions = .ok report) ↔ ∀ f ∈ functions, f.WellFormed := by
  simp only [analyzeProgram_eq_ok_iff, ← exists_analyzeFunction_iff (a := a)]
  constructor
  · rintro ⟨report, reports, hmap, -⟩ f hf
    have hmem := List.mem_map_of_mem (f := a.analyzeFunction) hf
    rw [hmap] at hmem
    obtain ⟨report, -, hreport⟩ := List.mem_map.mp hmem
    exact ⟨report, hreport.symm⟩
  · intro h
    induction functions with
    | nil => exact ⟨_, [], rfl, rfl⟩
    | cons f functions ih =>
      obtain ⟨⟨report, hreport⟩, hrest⟩ := List.forall_mem_cons.mp h
      obtain ⟨-, reports, hmap, -⟩ := ih hrest
      refine ⟨_, report :: reports, ?_, rfl⟩
      rw [List.map_cons, List.map_cons, hreport, hmap]

/-- The first function that is no flow graph is told, with its first fault. -/
theorem analyzeProgram_eq_error_iff {error : AnalysisError} :
    a.analyzeProgram functions = .error error ↔
      ∃ before f after fault, functions = before ++ f :: after ∧
        (∀ f' ∈ before, f'.WellFormed) ∧ f.fault? = some fault ∧ error = .flow fault := by
  have hmap : a.analyzeProgram functions = .error error ↔
      functions.mapM a.analyzeFunction = .error error := by
    rw [analyzeProgram]
    cases functions.mapM a.analyzeFunction <;> simp [Except.map]
  rw [hmap, mapM_eq_error_iff]
  simp only [exists_analyzeFunction_iff, analyzeFunction_eq_error_iff, exists_and_left]

/-- The findings of a program are those kept of its functions, sorted once. -/
theorem sortedStably_findings {reports : List FunctionReport}
    (h : functions.map a.analyzeFunction = reports.map .ok) :
    Finding.SortedStably (functions.flatMap a.kept)
      (ProgramReport.ofFunctions reports).findings := by
  have hflat : reports.flatMap (·.findings) =
      functions.flatMap fun f => Finding.sort (a.kept f) := by
    induction functions generalizing reports with
    | nil =>
      obtain rfl := List.map_eq_nil_iff.mp h.symm
      rfl
    | cons f functions ih =>
      cases reports with
      | nil => cases h
      | cons report reports =>
        obtain ⟨hreport, hrest⟩ := List.cons.inj h
        obtain ⟨g, rfl, rfl⟩ := analyzeFunction_eq_ok_iff.mp hreport
        rw [List.flatMap_cons, List.flatMap_cons, ih hrest, findings_reportOn_eq_sort_kept]
  rw [ProgramReport.ofFunctions, hflat]
  exact Finding.sortedStably_sort_flatMap functions a.kept

end Analyzer

/-- The report on a program in two parts. -/
theorem ProgramReport.ofFunctions_append (reports reports' : List FunctionReport) :
    ofFunctions (reports ++ reports') =
      { functions := reports ++ reports'
        findings := Finding.sort ((ofFunctions reports).findings ++ (ofFunctions reports').findings)
        summary := (ofFunctions reports).summary.add (ofFunctions reports').summary } := by
  simp only [ofFunctions, List.flatMap_append, List.foldl_append]
  rw [Tally.foldl_add_eq, Finding.sort_append]

namespace Analyzer

/-- **A program is the ordered merge of its functions.** There is a report exactly if every function
is a flow graph, and otherwise the first that is not is told with its first fault. The report holds
what is told of each function, in their order; each of its counts is the sum of theirs; and its
findings are those that are kept of the functions, one after the other, sorted once and stably. A
program in two parts has the reports of the parts put together, with the findings of both sorted. -/
theorem analyzeProgram_merges (a : Analyzer) (functions : List Function) :
    ((∃ report, a.analyzeProgram functions = .ok report) ↔ ∀ f ∈ functions, f.WellFormed) ∧
    (∀ error, a.analyzeProgram functions = .error error ↔
      ∃ before f after fault, functions = before ++ f :: after ∧
        (∀ f' ∈ before, f'.WellFormed) ∧ f.fault? = some fault ∧ error = .flow fault) ∧
    (∀ report, a.analyzeProgram functions = .ok report →
      functions.map a.analyzeFunction = report.functions.map .ok ∧
      report.summary.inBounds = (report.functions.map (·.summary.inBounds)).sum ∧
      report.summary.outOfBounds = (report.functions.map (·.summary.outOfBounds)).sum ∧
      report.summary.indeterminate = (report.functions.map (·.summary.indeterminate)).sum ∧
      Finding.SortedStably (functions.flatMap a.kept) report.findings ∧
      report.findings = Finding.sort (functions.flatMap a.kept)) ∧
    ∀ xs ys report, functions = xs ++ ys → a.analyzeProgram functions = .ok report →
      ∃ first second, a.analyzeProgram xs = .ok first ∧ a.analyzeProgram ys = .ok second ∧
        report =
          { functions := first.functions ++ second.functions
            findings := Finding.sort (first.findings ++ second.findings)
            summary := first.summary.add second.summary } := by
  refine ⟨exists_analyzeProgram_iff, fun error => analyzeProgram_eq_error_iff, ?_, ?_⟩
  · intro report h
    obtain ⟨reports, hmap, rfl⟩ := analyzeProgram_eq_ok_iff.mp h
    have hsorted := sortedStably_findings hmap
    exact ⟨hmap, Tally.field_foldl_add_zero (·.inBounds) (fun _ _ => rfl) rfl reports,
      Tally.field_foldl_add_zero (·.outOfBounds) (fun _ _ => rfl) rfl reports,
      Tally.field_foldl_add_zero (·.indeterminate) (fun _ _ => rfl) rfl reports,
      hsorted, hsorted.unique (Finding.sortedStably_sort (.refl _) fun _ _ => rfl)⟩
  · rintro xs ys report rfl h
    obtain ⟨reports, hmap, rfl⟩ := analyzeProgram_eq_ok_iff.mp h
    rw [List.map_append] at hmap
    obtain ⟨first, second, rfl, hfirst, hsecond⟩ := List.map_eq_append_iff.mp hmap.symm
    exact ⟨_, _, analyzeProgram_eq_ok_iff.mpr ⟨first, hfirst.symm, rfl⟩,
      analyzeProgram_eq_ok_iff.mpr ⟨second, hsecond.symm, rfl⟩,
      ProgramReport.ofFunctions_append first second⟩

end Analyzer

end BufferBounds
