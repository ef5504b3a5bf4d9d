import BufferBounds.Json
import BufferBounds.Settings

/-!
# Settings as JSON

The JSON form of settings, and the way back. A field that is left out has the choice of the
balanced preset. Reading does not ask whether the settings are valid.
-/

namespace BufferBounds

namespace StraddlePolicy

/-- The JSON form: the name of the policy. -/
def toJson (p : StraddlePolicy) : Json := .text p.name

/-- Reads the JSON form. -/
def ofJson? (j : Json) : Option StraddlePolicy := j.plain?.bind ofName?

end StraddlePolicy

namespace Preset

/-- The JSON form: the name of the preset. -/
def toJson (p : Preset) : Json := .text p.toString

/-- Reads the JSON form. -/
def ofJson? (j : Json) : Option Preset :=
  j.plain?.bind fun name => all.find? (·.toString == name)

end Preset

namespace Json

/-- The value of a field, or `standard` if the field is missing. -/
def fieldOr {α : Type} (fields : List (String × Json)) (name : String) (decode : Json → Option α)
    (standard : α) : Option α :=
  match fields.lookup name with
  | some j => decode j
  | none => some standard

end Json

namespace Parallel

/-- The JSON form: a record of the choices. -/
def toJson (p : Parallel) : Json :=
  .object [("enabled", .bool p.enabled), ("worker_threads", .ofNat p.workerThreads.toNat),
    ("min_functions", .ofNat p.minFunctions.toNat)]

/-- Reads the JSON form. -/
def ofJson? (j : Json) : Option Parallel := do
  let fields ← j.record? ["enabled", "worker_threads", "min_functions"]
  let standard := ofPreset .balanced
  return {
    enabled := ← Json.fieldOr fields "enabled" Json.bool? standard.enabled
    workerThreads := ← Json.fieldOr fields "worker_threads" Json.uint64? standard.workerThreads
    minFunctions := ← Json.fieldOr fields "min_functions" Json.uint64? standard.minFunctions }

end Parallel

namespace Settings

/-- The fields of the JSON form. -/
def jsonFields : List String :=
  ["max_fixpoint_iterations", "straddle_policy", "report_in_bounds", "branch_narrowing",
    "allocators", "parallel"]

/-- The JSON form: a record of the choices. -/
def toJson (s : Settings) : Json :=
  .object [("max_fixpoint_iterations", .ofNat s.maxFixpointIterations.toNat),
    ("straddle_policy", s.straddlePolicy.toJson), ("report_in_bounds", .bool s.reportInBounds),
    ("branch_narrowing", .bool s.branchNarrowing), ("allocators", .ofList .text s.allocators),
    ("parallel", s.parallel.toJson)]

/-- Reads the JSON form. -/
def ofJson? (j : Json) : Option Settings := do
  let fields ← j.record? jsonFields
  let standard := ofPreset .balanced
  let names (j : Json) : Option (List String) := do (← j.items?).mapM Json.text?
  return {
    maxFixpointIterations :=
      ← Json.fieldOr fields "max_fixpoint_iterations" Json.uint64? standard.maxFixpointIterations
    straddlePolicy :=
      ← Json.fieldOr fields "straddle_policy" StraddlePolicy.ofJson? standard.straddlePolicy
    reportInBounds := ← Json.fieldOr fields "report_in_bounds" Json.bool? standard.reportInBounds
    branchNarrowing := ← Json.fieldOr fields "branch_narrowing" Json.bool? standard.branchNarrowing
    allocators := ← Json.fieldOr fields "allocators" names standard.allocators
    parallel := ← Json.fieldOr fields "parallel" Parallel.ofJson? standard.parallel }

end Settings

end BufferBounds
