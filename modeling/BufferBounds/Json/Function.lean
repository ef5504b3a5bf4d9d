import BufferBounds.Function
import BufferBounds.Json

/-!
# Functions as JSON

The JSON form of functions and of all they are made of. For each type there is `toJson`, and
`ofJson?`, which reads that form back. Reading does not mind the order of fields, fields of other
names, or a branch condition that is left out instead of being null.
-/

namespace BufferBounds

/-! ## Spans -/

namespace Span

/-- The fields of the JSON form. -/
def jsonFields : List String := ["start_line", "start_col", "end_line", "end_col"]

/-- The JSON form: a record of four numbers. -/
def toJson (s : Span) : Json :=
  .object [
    ("start_line", .ofNat s.startLine.toNat),
    ("start_col", .ofNat s.startCol.toNat),
    ("end_line", .ofNat s.endLine.toNat),
    ("end_col", .ofNat s.endCol.toNat)]

/-- Reads the JSON form. -/
def ofJson? (j : Json) : Option Span := do
  let fields ← j.record? jsonFields
  return {
    startLine := ← (← fields.lookup "start_line").uint32?
    startCol := ← (← fields.lookup "start_col").uint32?
    endLine := ← (← fields.lookup "end_line").uint32?
    endCol := ← (← fields.lookup "end_col").uint32? }

end Span

/-! ## Expressions -/

namespace Expr

/-- The kinds of expressions. -/
def kinds : List String := ["const", "var", "add", "sub", "select", "call", "unmodeled"]

mutual

/-- The JSON form: a record whose `kind` tells the kind of expression. -/
def toJson : Expr → Json
  | .const value => .object [("kind", .text "const"), ("value", .integer value.toInt)]
  | .var name => .object [("kind", .text "var"), ("name", .text name)]
  | .add lhs rhs =>
    .object [("kind", .text "add"), ("lhs", lhs.toJson), ("rhs", rhs.toJson)]
  | .sub lhs rhs =>
    .object [("kind", .text "sub"), ("lhs", lhs.toJson), ("rhs", rhs.toJson)]
  | .select thenArm elseArm =>
    .object [("kind", .text "select"), ("then", thenArm.toJson), ("otherwise", elseArm.toJson)]
  | .call callee args =>
    .object [("kind", .text "call"), ("callee", .text callee), ("args", .array (toJsonList args))]
  | .unmodeled text => .object [("kind", .text "unmodeled"), ("text", .text text)]

/-- The JSON forms of several expressions. -/
def toJsonList : List Expr → List Json
  | [] => []
  | e :: es => e.toJson :: toJsonList es

end

mutual

/-- Reads the JSON form; `inner` tells whether it is part of a record with a kind. -/
def read? (inner : Bool) (j : Json) : Option Expr :=
  match _hk : j.kind? kinds inner with
  | some ("const", body) => do
    let fields ← body.record? ["value"]
    return .const (← (← fields.lookup "value").int64?)
  | some ("var", body) => do
    let fields ← body.record? ["name"]
    return .var (← (← fields.lookup "name").text?)
  | some ("add", body) =>
    match _hr : body.record? ["lhs", "rhs"] with
    | some fields =>
      match _hl : fields.lookup "lhs", _hr' : fields.lookup "rhs" with
      | some lhs, some rhs => do return .add (← read? true lhs) (← read? true rhs)
      | _, _ => none
    | none => none
  | some ("sub", body) =>
    match _hr : body.record? ["lhs", "rhs"] with
    | some fields =>
      match _hl : fields.lookup "lhs", _hr' : fields.lookup "rhs" with
      | some lhs, some rhs => do return .sub (← read? true lhs) (← read? true rhs)
      | _, _ => none
    | none => none
  | some ("select", body) =>
    match _hr : body.record? ["then", "otherwise"] with
    | some fields =>
      match _hl : fields.lookup "then", _hr' : fields.lookup "otherwise" with
      | some thenArm, some elseArm => do
        return .select (← read? true thenArm) (← read? true elseArm)
      | _, _ => none
    | none => none
  | some ("call", body) =>
    match _hr : body.record? ["callee", "args"] with
    | some fields =>
      match fields.lookup "callee", _hl : fields.lookup "args" with
      | some (.text callee), some (.array args) => do return .call callee (← readList? args)
      | _, _ => none
    | none => none
  | some ("unmodeled", body) => do
    let fields ← body.record? ["text"]
    return .unmodeled (← (← fields.lookup "text").text?)
  | _ => none
termination_by sizeOf j
decreasing_by
  all_goals
    have hk := Json.sizeOf_kind_le _hk
    have hl := Json.sizeOf_field_lt _hr _hl
    try have hr := Json.sizeOf_field_lt _hr _hr'
    try simp only [Json.array.sizeOf_spec] at hl
    omega

/-- Reads the JSON forms of the arguments of a call. -/
def readList? (js : List Json) : Option (List Expr) :=
  match js with
  | [] => some []
  | j :: js => do return (← read? true j) :: (← readList? js)
termination_by sizeOf js

end

/-- Reads the JSON form. -/
def ofJson? (j : Json) : Option Expr := read? false j

end Expr

/-! ## Conditions -/

namespace Comparison

/-- The JSON form: the name of the comparison. -/
def toJson : Comparison → Json
  | .eq => .text "eq"
  | .neq => .text "neq"
  | .lt => .text "lt"
  | .le => .text "le"
  | .gt => .text "gt"
  | .ge => .text "ge"

/-- The comparison of this name. -/
def ofName? : String → Option Comparison
  | "eq" => some .eq
  | "neq" => some .neq
  | "lt" => some .lt
  | "le" => some .le
  | "gt" => some .gt
  | "ge" => some .ge
  | _ => none

/-- Reads the JSON form. -/
def ofJson? (j : Json) : Option Comparison := j.plain?.bind ofName?

end Comparison

namespace Condition

/-- The JSON form: a record of the variable, the comparison and the expression. -/
def toJson (c : Condition) : Json :=
  .object [("var", .text c.var), ("op", c.op.toJson), ("value", c.value.toJson)]

/-- Reads the JSON form, as part of a branch. -/
def ofJson? (j : Json) : Option Condition := do
  let fields ← j.record? ["var", "op", "value"]
  return {
    var := ← (← fields.lookup "var").text?
    op := ← (← fields.lookup "op").innerPlain?.bind Comparison.ofName?
    value := ← Expr.read? true (← fields.lookup "value") }

end Condition

/-! ## Statements -/

namespace Statement

/-- The kinds of statements. -/
def kinds : List String := ["assign", "access", "eval"]

/-- The JSON form: a record whose `kind` tells the kind of statement. -/
def toJson : Statement → Json
  | .assign target value span =>
    .object [("kind", .text "assign"), ("target", .text target), ("value", value.toJson),
      ("span", span.toJson)]
  | .access base index span =>
    .object [("kind", .text "access"), ("base", .text base), ("index", index.toJson),
      ("span", span.toJson)]
  | .eval expr span =>
    .object [("kind", .text "eval"), ("expr", expr.toJson), ("span", span.toJson)]

/-- Reads the JSON form. -/
def ofJson? (j : Json) : Option Statement := do
  match ← j.kind? kinds false with
  | ("assign", body) =>
    let fields ← body.record? ["target", "value", "span"]
    return .assign (← (← fields.lookup "target").text?)
      (← Expr.read? true (← fields.lookup "value")) (← Span.ofJson? (← fields.lookup "span"))
  | ("access", body) =>
    let fields ← body.record? ["base", "index", "span"]
    return .access (← (← fields.lookup "base").text?)
      (← Expr.read? true (← fields.lookup "index")) (← Span.ofJson? (← fields.lookup "span"))
  | ("eval", body) =>
    let fields ← body.record? ["expr", "span"]
    return .eval (← Expr.read? true (← fields.lookup "expr"))
      (← Span.ofJson? (← fields.lookup "span"))
  | _ => none

end Statement

/-! ## Blocks -/

namespace Terminator

/-- The kinds of ends of blocks. -/
def kinds : List String := ["goto", "branch", "return"]

/-- The JSON form: a record whose `kind` tells how the block ends. -/
def toJson : Terminator → Json
  | .goto target => .object [("kind", .text "goto"), ("target", .text target)]
  | .branch condition thenBlock elseBlock =>
    .object [("kind", .text "branch"), ("condition", .ofOption Condition.toJson condition),
      ("then_block", .text thenBlock), ("else_block", .text elseBlock)]
  | .exit => .object [("kind", .text "return")]

/-- Reads the JSON form. -/
def ofJson? (j : Json) : Option Terminator := do
  match ← j.kind? kinds false with
  | ("goto", body) =>
    let fields ← body.record? ["target"]
    return .goto (← (← fields.lookup "target").text?)
  | ("branch", body) =>
    let fields ← body.record? ["condition", "then_block", "else_block"]
    let condition ← match Json.optional? fields "condition" with
      | some condition => (Condition.ofJson? condition).map some
      | none => some none
    return .branch condition (← (← fields.lookup "then_block").text?)
      (← (← fields.lookup "else_block").text?)
  | ("return", body) =>
    let _ ← body.record? []
    return .exit
  | _ => none

end Terminator

namespace Block

/-- The JSON form: a record of the name, the statements and the end. -/
def toJson (b : Block) : Json :=
  .object [("id", .text b.id), ("statements", .ofList Statement.toJson b.statements),
    ("terminator", b.terminator.toJson)]

/-- Reads the JSON form. -/
def ofJson? (j : Json) : Option Block := do
  let fields ← j.record? ["id", "statements", "terminator"]
  return {
    id := ← (← fields.lookup "id").text?
    statements := ← (← (← fields.lookup "statements").items?).mapM Statement.ofJson?
    terminator := ← Terminator.ofJson? (← fields.lookup "terminator") }

end Block

/-! ## Functions -/

namespace Function

/-- The JSON form: a record of the name, the entry and the blocks. -/
def toJson (f : Function) : Json :=
  .object [("name", .text f.name), ("entry", .text f.entry),
    ("blocks", .ofList Block.toJson f.blocks)]

/-- Reads the JSON form. -/
def ofJson? (j : Json) : Option Function := do
  let fields ← j.record? ["name", "entry", "blocks"]
  return {
    name := ← (← fields.lookup "name").text?
    entry := ← (← fields.lookup "entry").text?
    blocks := ← (← (← fields.lookup "blocks").items?).mapM Block.ofJson? }

end Function

end BufferBounds
