import BufferBounds.Analysis
import BufferBounds.Json.Store
import BufferBounds.Json.Writer

/-!
# Reports as JSON

The JSON form of findings and reports, and the texts that are written for other tools. The fields
of every record are in a fixed order.
-/

namespace BufferBounds

namespace Verdict

/-- The JSON form: the name of the verdict. -/
def toJson : Verdict → Json
  | .inBounds => .text "InBounds"
  | .outOfBounds => .text "OutOfBounds"
  | .indeterminate => .text "Indeterminate"

/-- Reads the JSON form. -/
def ofJson? (j : Json) : Option Verdict :=
  match j.plain? with
  | some "InBounds" => some .inBounds
  | some "OutOfBounds" => some .outOfBounds
  | some "Indeterminate" => some .indeterminate
  | _ => none

end Verdict

namespace Finding

/-- The JSON form: a record of the parts of the finding. -/
def toJson (f : Finding) : Json :=
  .object [("verdict", f.verdict.toJson), ("span", f.span.toJson), ("function", .text f.function),
    ("base", .text f.base), ("index", f.index.toJson), ("size", f.size.toJson)]

/-- Reads the JSON form. -/
def ofJson? (j : Json) : Option Finding := do
  let fields ← j.record? ["verdict", "span", "function", "base", "index", "size"]
  return {
    verdict := ← Verdict.ofJson? (← fields.lookup "verdict")
    span := ← Span.ofJson? (← fields.lookup "span")
    function := ← (← fields.lookup "function").text?
    base := ← (← fields.lookup "base").text?
    index := ← Interval.ofJson? (← fields.lookup "index")
    size := ← Interval.ofJson? (← fields.lookup "size") }

/-- The text for other tools: the list of the findings. -/
def listText (findings : List Finding) : String := (Json.ofList toJson findings).pretty

end Finding

namespace Allocation

/-- The JSON form: a record of the parts of the allocation. -/
def toJson (a : Allocation) : Json :=
  .object [("site", a.site.toJson), ("pointer", .text a.pointer), ("size", a.size.toJson)]

end Allocation

namespace Tally

/-- The JSON form: a record of the counts. -/
def toJson (t : Tally) : Json :=
  .object [("in_bounds", .ofNat t.inBounds), ("out_of_bounds", .ofNat t.outOfBounds),
    ("indeterminate", .ofNat t.indeterminate)]

end Tally

namespace Stats

/-- The JSON form: a record of the counts and the widened blocks. -/
def toJson (s : Stats) : Json :=
  .object [("blocks", .ofNat s.blocks), ("reached_blocks", .ofNat s.reachedBlocks),
    ("iterations", .ofNat s.iterations), ("widened_blocks", .ofList .text s.widenedBlocks)]

end Stats

namespace FunctionReport

/-- The JSON form: a record of the parts of the report. -/
def toJson (r : FunctionReport) : Json :=
  .object [("function", .text r.function), ("findings", .ofList Finding.toJson r.findings),
    ("allocations", .ofList Allocation.toJson r.allocations), ("summary", r.summary.toJson),
    ("stats", r.stats.toJson)]

end FunctionReport

namespace ProgramReport

/-- The JSON form: a record of the parts of the report. -/
def toJson (r : ProgramReport) : Json :=
  .object [("functions", .ofList FunctionReport.toJson r.functions),
    ("findings", .ofList Finding.toJson r.findings), ("summary", r.summary.toJson)]

/-- The text for other tools: the whole report. -/
def text (r : ProgramReport) : String := r.toJson.pretty

end ProgramReport

end BufferBounds
