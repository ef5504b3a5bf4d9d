import BufferBounds.Text.WhiteSpace
import BufferBounds.Verdict

/-!
# Settings

What the user decides about an analysis. Settings start from a preset, and single ones are then
changed. Settings that an analysis can run with are `valid`; of invalid settings the first fault
is told.
-/

namespace BufferBounds

/-! ## Errors -/

/-- Why settings are refused. -/
inductive SettingsError where
  /-- the number of changes before widening is out of range -/
  | iterationsOutOfRange (value : UInt64)
  /-- the number of worker threads is out of range -/
  | workersOutOfRange (value : UInt64)
  /-- the allocator at this place of the list has a blank name -/
  | blankAllocator (place : Nat)
  /-- a document has this version, which is not the one that is read -/
  | unsupportedVersion (found : UInt32)
  /-- no preset has this name -/
  | unknownPreset (name : String)
  /-- a document has no settings in it -/
  | malformed
  deriving DecidableEq

/-- The greatest number of changes before widening. -/
def maxIterationsLimit : UInt64 := 10000

/-- The greatest number of worker threads. -/
def maxWorkerThreads : UInt64 := 1024

/-- The version of the documents that are read and written. -/
def documentVersion : UInt32 := 1

namespace SettingsError

/-- The message that tells the user. -/
def message : SettingsError → String
  | .iterationsOutOfRange value =>
    s!"max_fixpoint_iterations = {value.toNat} is outside 1..={maxIterationsLimit.toNat}" ++
      " (a block needs at least one change to reach its fixed point)"
  | .workersOutOfRange value =>
    s!"parallel.worker_threads = {value.toNat} is outside 0..={maxWorkerThreads.toNat}" ++
      " (0 runs on the global rayon pool)"
  | .blankAllocator place =>
    s!"BoundsConfig.allocators[{place}]: allocator names must be callee names like 'malloc'"
  | .unsupportedVersion found =>
    s!"config schema version {found.toNat} is not supported (expected {documentVersion.toNat})"
  | .unknownPreset name =>
    s!"unknown preset '{name}' (expected fast, balanced, thorough or custom)"
  | .malformed => "malformed config YAML"

end SettingsError

/-! ## Presets -/

/-- A named choice of all settings. -/
inductive Preset where
  /-- little work for each function -/
  | fast
  /-- what is used when nothing is chosen -/
  | balanced
  /-- loops of many rounds are followed to their end -/
  | thorough
  /-- a basis for choosing single settings -/
  | custom
  deriving DecidableEq

namespace Preset

/-- All presets. -/
def all : List Preset := [.fast, .balanced, .thorough, .custom]

/-- The name of the preset. -/
protected def toString : Preset → String
  | .fast => "fast"
  | .balanced => "balanced"
  | .thorough => "thorough"
  | .custom => "custom"

instance : ToString Preset := ⟨Preset.toString⟩

/-- The character with an upper-case ASCII letter made lower-case. -/
def foldCase (c : Char) : Char :=
  if 'A' ≤ c ∧ c ≤ 'Z' then Char.ofNat (c.toNat + 32) else c

/-- The preset that a text names. White space around the name and the case of its ASCII letters do
not matter. -/
def ofText (text : String) : Except SettingsError Preset :=
  let name := String.ofList ((Text.trim text).toList.map foldCase)
  match all.find? (·.toString == name) with
  | some preset => .ok preset
  | none => .error (.unknownPreset text)

/-- How often a store may change before it is widened. -/
def maxFixpointIterations : Preset → UInt64
  | .fast => 16
  | .balanced => 64
  | .thorough => 256
  | .custom => 64

end Preset

/-! ## Settings -/

/-- How the functions of a program are shared out. Reports do not depend on it. -/
structure Parallel where
  /-- whether functions are analysed side by side -/
  enabled : Bool
  /-- how many threads work on them; zero leaves that to the machine -/
  workerThreads : UInt64
  /-- fewer functions than this are analysed one by one -/
  minFunctions : UInt64
  deriving DecidableEq

namespace Parallel

/-- The choice of a preset. -/
def ofPreset : Preset → Parallel
  | .fast => { enabled := false, workerThreads := 0, minFunctions := 1 }
  | _ => { enabled := true, workerThreads := 0, minFunctions := 2 }

/-- The number of threads must be in range. -/
def fault? (p : Parallel) : Option SettingsError :=
  if maxWorkerThreads < p.workerThreads then some (.workersOutOfRange p.workerThreads) else none

/-- How many threads work, if that is not left to the machine. -/
def threads? (p : Parallel) : Option Nat :=
  if p.enabled then
    if 0 < p.workerThreads then some p.workerThreads.toNat else none
  else some 1

end Parallel

/-- All that the user decides about an analysis. -/
structure Settings where
  /-- how often the store at the start of a loop may change before it is widened -/
  maxFixpointIterations : UInt64
  /-- what to make of index intervals that straddle the end of a buffer -/
  straddlePolicy : StraddlePolicy
  /-- whether accesses in bounds are reported too -/
  reportInBounds : Bool
  /-- whether the condition of a branch restricts its variable -/
  branchNarrowing : Bool
  /-- the names of the functions that allocate buffers -/
  allocators : List String
  /-- how functions are shared out -/
  parallel : Parallel
  deriving DecidableEq

namespace Settings

/-- The allocators of every preset. -/
def standardAllocators : List String := ["malloc", "calloc", "realloc", "aligned_alloc"]

/-- The choice of a preset. -/
def ofPreset (preset : Preset) : Settings where
  maxFixpointIterations := preset.maxFixpointIterations
  straddlePolicy := .indeterminate
  reportInBounds := false
  branchNarrowing := preset ≠ .fast
  allocators := standardAllocators
  parallel := .ofPreset preset

instance : Inhabited Settings := ⟨.ofPreset .balanced⟩

/-- Adds an allocator, unless it is there already. -/
def addAllocator (s : Settings) (name : String) : Settings :=
  if name ∈ s.allocators then s else { s with allocators := s.allocators ++ [name] }

/-- Is this the name of an allocator? -/
def isAllocator (s : Settings) (callee : String) : Bool := callee ∈ s.allocators

/-! ## Validity -/

/-- The first fault: the number of changes, then the names of the allocators, then the threads. -/
def fault? (s : Settings) : Option SettingsError :=
  if s.maxFixpointIterations = 0 ∨ maxIterationsLimit < s.maxFixpointIterations then
    some (.iterationsOutOfRange s.maxFixpointIterations)
  else
    match s.allocators.findIdx? fun name => (Text.trim name).isEmpty with
    | some place => some (.blankAllocator place)
    | none => s.parallel.fault?

/-- The settings, if they have no fault. -/
def validated (s : Settings) : Except SettingsError Settings :=
  match s.fault? with
  | some error => .error error
  | none => .ok s

end Settings

end BufferBounds
