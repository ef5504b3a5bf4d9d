import BufferBounds.Finding
import BufferBounds.Propagation

/-!
# Analysis

The whole way from functions to reports. An `Analyzer` has valid settings and a checker for single
accesses. It propagates stores through a function, lets the checker judge every access, and
reports. A program is a list of functions; each is analysed by itself, and the first one that is
no flow graph is told instead of a report.
-/

namespace BufferBounds

/-! ## Checkers -/

/-- What judges a single access. -/
structure Checker where
  /-- the name of the checker -/
  name : String
  /-- the verdict on an access -/
  classify : Access → Verdict

namespace Checker

/-- Judges an access by its index and the size of its buffer. Of an access to something else than
a tracked buffer nothing is decided. -/
def bounds (policy : StraddlePolicy) : Checker where
  name := "BoundsChecker"
  classify access :=
    match access.size? with
    | some size => policy.classify size access.index
    | none => .indeterminate

end Checker

/-! ## Reports -/

/-- How the propagation through a function went. -/
structure Stats where
  /-- how many blocks the function has -/
  blocks : Nat
  /-- how many of them are reached -/
  reachedBlocks : Nat
  /-- how often a block was run -/
  iterations : Nat
  /-- the blocks whose store was widened -/
  widenedBlocks : List String
  deriving DecidableEq

/-- What is told of a function. -/
structure FunctionReport where
  /-- its name -/
  function : String
  /-- the findings, by position -/
  findings : List Finding
  /-- the buffers it allocates -/
  allocations : List Allocation
  /-- the counts of all its accesses -/
  summary : Tally
  /-- how the propagation went -/
  stats : Stats
  deriving DecidableEq

/-- What is told of a program. -/
structure ProgramReport where
  /-- what is told of each function, in their order -/
  functions : List FunctionReport
  /-- the findings in all of them, by position -/
  findings : List Finding
  /-- the counts of the accesses in all of them -/
  summary : Tally
  deriving DecidableEq

namespace ProgramReport

/-- The report on a program with these functions. -/
def ofFunctions (functions : List FunctionReport) : ProgramReport where
  functions := functions
  findings := Finding.sort (functions.flatMap (·.findings))
  summary := functions.foldl (fun total report => total.add report.summary) .zero

end ProgramReport

/-! ## Errors -/

/-- Why there is no report. -/
inductive AnalysisError where
  /-- a function is no flow graph -/
  | flow (error : FlowError)
  /-- the settings are refused -/
  | settings (error : SettingsError)
  deriving DecidableEq

namespace AnalysisError

/-- The message that tells the user. -/
def message : AnalysisError → String
  | .flow error => error.message
  | .settings error => s!"Configuration error: {error.message}"

end AnalysisError

/-! ## Analyzers -/

/-- What analyses functions. -/
structure Analyzer where
  /-- what the user decided -/
  settings : Settings
  /-- the settings have no fault -/
  valid : settings.fault? = none
  /-- what judges the accesses -/
  checker : Checker

namespace Analyzer

/-- The analyzer with these settings, unless they have a fault. -/
def ofSettings (settings : Settings) : Except AnalysisError Analyzer :=
  match h : settings.fault? with
  | some error => .error (.settings error)
  | none => .ok ⟨settings, h, .bounds settings.straddlePolicy⟩

/-- Lets another checker judge the accesses. -/
def withChecker (a : Analyzer) (checker : Checker) : Analyzer := { a with checker }

/-- The report on a flow graph. -/
def reportOn (a : Analyzer) (g : Flow) : FunctionReport :=
  let r := g.propagate a.settings
  let reporter := r.accesses.foldl
    (fun reporter access => reporter.accept access (a.checker.classify access))
    (Reporter.fresh a.settings.reportInBounds)
  { function := g.function.name
    findings := reporter.finish.1
    allocations := r.allocations
    summary := reporter.tally
    stats :=
      { blocks := g.function.blocks.length
        reachedBlocks := r.entries.size
        iterations := r.transfers
        widenedBlocks := r.widened } }

/-- The report on a function. -/
def analyzeFunction (a : Analyzer) (f : Function) : Except AnalysisError FunctionReport :=
  match Flow.ofFunction f with
  | .ok g => .ok (a.reportOn g)
  | .error error => .error (.flow error)

/-- The report on a program. -/
def analyzeProgram (a : Analyzer) (functions : List Function) :
    Except AnalysisError ProgramReport :=
  (functions.mapM a.analyzeFunction).map .ofFunctions

end Analyzer

end BufferBounds
