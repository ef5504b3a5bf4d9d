import BufferBounds.Expr
import BufferBounds.Span

/-!
# Functions

A function is a list of named blocks. A block holds statements that run in order and ends in a
terminator, which names the blocks that may run next. Nothing here demands that the names fit
together: `Flow` is the type of the functions whose names do.
-/

namespace BufferBounds

/-! ## Conditions -/

/-- How a condition compares. -/
inductive Comparison where
  /-- the sides are equal -/
  | eq
  /-- the sides differ -/
  | neq
  /-- the left side is less -/
  | lt
  /-- the left side is at most the right -/
  | le
  /-- the left side is greater -/
  | gt
  /-- the left side is at least the right -/
  | ge
  deriving DecidableEq

namespace Comparison

/-- The comparison that holds exactly when this one does not. -/
def negate : Comparison → Comparison
  | .eq => .neq
  | .neq => .eq
  | .lt => .ge
  | .le => .gt
  | .gt => .le
  | .ge => .lt

/-- The operator as it is written. -/
protected def toString : Comparison → String
  | .eq => "=="
  | .neq => "!="
  | .lt => "<"
  | .le => "<="
  | .gt => ">"
  | .ge => ">="

instance : ToString Comparison := ⟨Comparison.toString⟩

end Comparison

/-- A comparison of a variable with an expression. -/
structure Condition where
  /-- the variable on the left -/
  var : String
  /-- how it is compared -/
  op : Comparison
  /-- the expression on the right -/
  value : Expr

/-! ## Statements -/

/-- One step of a block. -/
inductive Statement where
  /-- gives a variable the value of an expression -/
  | assign (target : String) (value : Expr) (span : Span)
  /-- uses the element `base[index]` -/
  | access (base : String) (index : Expr) (span : Span)
  /-- evaluates an expression for its effects, which are not modelled -/
  | eval (expr : Expr) (span : Span)

namespace Statement

/-- Where the statement stands in the source text. -/
def span : Statement → Span
  | .assign _ _ span => span
  | .access _ _ span => span
  | .eval _ span => span

/-- The expression that the statement evaluates. -/
def expr : Statement → Expr
  | .assign _ value _ => value
  | .access _ index _ => index
  | .eval expr _ => expr

/-- The variable that the statement assigns, if it is an assignment. -/
def target? : Statement → Option String
  | .assign target _ _ => some target
  | _ => none

end Statement

/-! ## Blocks -/

/-- Which way an edge between blocks is taken. -/
inductive EdgeKind where
  /-- always -/
  | jump
  /-- when the condition of the branch holds -/
  | whenTrue
  /-- when the condition of the branch does not hold -/
  | whenFalse
  deriving DecidableEq

/-- How a block ends. -/
inductive Terminator where
  /-- goes on to another block -/
  | goto (target : String)
  /-- goes on to one of two blocks; a condition that is not modelled is left out -/
  | branch (condition : Option Condition) (thenBlock elseBlock : String)
  /-- leaves the function -/
  | exit

namespace Terminator

/-- The edges that leave the block, the one of the true branch first. -/
def edges : Terminator → List (String × EdgeKind)
  | .goto target => [(target, .jump)]
  | .branch _ thenBlock elseBlock => [(thenBlock, .whenTrue), (elseBlock, .whenFalse)]
  | .exit => []

/-- The blocks that the edges lead to. -/
def targets (t : Terminator) : List String := t.edges.map (·.1)

/-- The condition that decides between the edges, if it is modelled. -/
def condition? : Terminator → Option Condition
  | .branch condition _ _ => condition
  | _ => none

end Terminator

/-- A block. -/
structure Block where
  /-- its name in the function -/
  id : String
  /-- its statements, in order -/
  statements : List Statement
  /-- how it ends -/
  terminator : Terminator

namespace Block

/-- The variables that the block assigns. -/
def targets (b : Block) : List String := b.statements.filterMap Statement.target?

end Block

/-! ## Functions -/

/-- A function. -/
structure Function where
  /-- its name -/
  name : String
  /-- the block that runs first -/
  entry : String
  /-- its blocks -/
  blocks : List Block

namespace Function

/-- The names of the blocks. -/
def ids (f : Function) : List String := f.blocks.map (·.id)

/-- The first block of this name. -/
def block? (f : Function) (id : String) : Option Block :=
  f.blocks.find? (·.id == id)

end Function

end BufferBounds
