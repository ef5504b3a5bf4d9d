import BufferBounds.Settings
import BufferBounds.Yaml.Datum

/-!
# Settings as data

Settings as a mapping from names to data, and the way back. Names that are no setting are ignored,
and a setting that is not named has the choice of the balanced preset. What is named must have the
type of its setting: a number is never taken for a text, nor a text for a number. Nothing in place
of a list is the empty list, and nothing in place of a mapping is the empty mapping.

To override some settings, the data that name them are laid over the data of all settings.
-/

namespace BufferBounds

namespace Yaml.Datum

/-- The truth value. -/
def bool? : Datum → Option Bool
  | .bool b => some b
  | _ => none

/-- The integer, if it is a natural number of 64 bits. -/
def uint64? : Datum → Option UInt64
  | .integer (.ofNat n) => if n < UInt64.size then some (.ofNat n) else none
  | _ => none

/-- The text. -/
def text? : Datum → Option String
  | .text s => some s
  | _ => none

/-- The items of a list; nothing is an empty list. -/
def items? : Datum → Option (List Datum)
  | .null => some []
  | .sequence items => some items
  | _ => none

/-- The value of a field, or `standard` if the field is missing. -/
def fieldOr {α : Type} (fields : List (String × Datum)) (name : String)
    (decode : Datum → Option α) (standard : α) : Option α :=
  match fields.lookup name with
  | some d => decode d
  | none => some standard

end Yaml.Datum

open Yaml (Datum)

namespace Parallel

/-- The choices by their names. -/
def toDatum (p : Parallel) : Datum :=
  .mapping [(.text "enabled", .bool p.enabled),
    (.text "worker_threads", .integer p.workerThreads.toNat),
    (.text "min_functions", .integer p.minFunctions.toNat)]

/-- Reads the choices. -/
def ofDatum? (d : Datum) : Option Parallel := do
  let fields ← d.record?
  let standard := ofPreset .balanced
  return {
    enabled := ← Datum.fieldOr fields "enabled" Datum.bool? standard.enabled
    workerThreads :=
      ← Datum.fieldOr fields "worker_threads" Datum.uint64? standard.workerThreads
    minFunctions := ← Datum.fieldOr fields "min_functions" Datum.uint64? standard.minFunctions }

end Parallel

namespace Settings

/-- The settings by their names. -/
def toDatum (s : Settings) : Datum :=
  .mapping [(.text "max_fixpoint_iterations", .integer s.maxFixpointIterations.toNat),
    (.text "straddle_policy", .text s.straddlePolicy.name),
    (.text "report_in_bounds", .bool s.reportInBounds),
    (.text "branch_narrowing", .bool s.branchNarrowing),
    (.text "allocators", .sequence (s.allocators.map .text)),
    (.text "parallel", s.parallel.toDatum)]

/-- Reads the settings. -/
def ofDatum? (d : Datum) : Option Settings := do
  let fields ← d.record?
  let standard := ofPreset .balanced
  let policy (d : Datum) : Option StraddlePolicy := d.text?.bind StraddlePolicy.ofName?
  let names (d : Datum) : Option (List String) := do (← d.items?).mapM Datum.text?
  return {
    maxFixpointIterations :=
      ← Datum.fieldOr fields "max_fixpoint_iterations" Datum.uint64? standard.maxFixpointIterations
    straddlePolicy := ← Datum.fieldOr fields "straddle_policy" policy standard.straddlePolicy
    reportInBounds :=
      ← Datum.fieldOr fields "report_in_bounds" Datum.bool? standard.reportInBounds
    branchNarrowing :=
      ← Datum.fieldOr fields "branch_narrowing" Datum.bool? standard.branchNarrowing
    allocators := ← Datum.fieldOr fields "allocators" names standard.allocators
    parallel := ← Datum.fieldOr fields "parallel" Parallel.ofDatum? standard.parallel }

/-- The settings with those changed that the overrides name, if each has the type of its
setting. -/
def override? (s : Settings) (overrides : Datum) : Option Settings :=
  ofDatum? (s.toDatum.overlay overrides)

end Settings

end BufferBounds
