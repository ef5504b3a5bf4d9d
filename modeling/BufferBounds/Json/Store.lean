import BufferBounds.Json.Function
import BufferBounds.Store

/-!
# Stores as JSON

The JSON form of intervals, pointers, values and stores, and the way back. Intervals are taken as
they are written, whether or not they are in the spelling that `Interval.between?` gives them.
-/

namespace BufferBounds

namespace Bound

/-- The JSON form: an alternative that holds the word of a finite bound. -/
def toJson : Bound → Json
  | .negInf => .text "NegInf"
  | .finite n => .object [("Finite", .integer n.toInt)]
  | .posInf => .text "PosInf"

/-- Reads the JSON form. -/
def ofJson? (j : Json) : Option Bound :=
  match j.alternative? with
  | some ("Finite", some n) => n.int64?.map .finite
  | _ =>
    match j.plain? with
    | some "NegInf" => some .negInf
    | some "PosInf" => some .posInf
    | _ => none

end Bound

namespace Interval

/-- The JSON form: an alternative that holds the word or the two bounds. -/
def toJson : Interval → Json
  | .constant n => .object [("Constant", .integer n.toInt)]
  | .range lo hi => .object [("Range", .object [("lo", lo.toJson), ("hi", hi.toJson)])]
  | .unknown => .text "Unknown"

/-- Reads the JSON form. -/
def ofJson? (j : Json) : Option Interval :=
  match j.alternative? with
  | some ("Constant", some n) => n.int64?.map .constant
  | some ("Range", some bounds) => do
    let fields ← bounds.object?
    return .range (← Bound.ofJson? (← fields.lookup "lo"))
      (← Bound.ofJson? (← fields.lookup "hi"))
  | _ =>
    match j.plain? with
    | some "Unknown" => some .unknown
    | _ => none

end Interval

namespace Site

/-- The JSON form: a record of the block, the statement and the span. -/
def toJson (s : Site) : Json :=
  .object [("block", .text s.block), ("statement", .ofNat s.statement), ("span", s.span.toJson)]

/-- Reads the JSON form. -/
def ofJson? (j : Json) : Option Site := do
  let fields ← j.record? ["block", "statement", "span"]
  return {
    block := ← (← fields.lookup "block").text?
    statement := ← (← fields.lookup "statement").count?
    span := ← Span.ofJson? (← fields.lookup "span") }

end Site

namespace Pointer

/-- The JSON form: an alternative that holds the sites, in their order, and the size. -/
def toJson : Pointer → Json
  | .buffer sites size =>
    .object [("Buffer", .object [("sites", .ofList Site.toJson sites.toList),
      ("size", size.toJson)])]
  | .untracked => .text "Untracked"

/-- Reads the JSON form. The sites may be in any order, and repeated. -/
def ofJson? (j : Json) : Option Pointer :=
  match j.alternative? with
  | some ("Buffer", some body) => do
    let fields ← body.object?
    let sites ← (← (← fields.lookup "sites").items?).mapM Site.ofJson?
    return .buffer (Std.ExtTreeSet.ofList sites) (← Interval.ofJson? (← fields.lookup "size"))
  | _ =>
    match j.plain? with
    | some "Untracked" => some .untracked
    | _ => none

end Pointer

namespace Value

/-- The JSON form: an alternative that holds the number or the pointer. -/
def toJson : Value → Json
  | .scalar i => .object [("Scalar", i.toJson)]
  | .pointer p => .object [("Pointer", p.toJson)]

/-- Reads the JSON form. -/
def ofJson? (j : Json) : Option Value :=
  match j.alternative? with
  | some ("Scalar", some i) => (Interval.ofJson? i).map .scalar
  | some ("Pointer", some p) => (Pointer.ofJson? p).map .pointer
  | _ => none

end Value

namespace Store

/-- The JSON form: an object with a field for every variable. -/
def toJson (s : Store) : Json :=
  .object (s.toList.map fun (var, value) => (var, value.toJson))

/-- Reads the JSON form. -/
def ofJson? : Json → Option Store
  | .object fields => do
    let entries ← fields.mapM fun (var, value) => do return (var, ← Value.ofJson? value)
    return ofList entries
  | _ => none

end Store

end BufferBounds
