import BufferBounds.Expr
import BufferBounds.Store

/-!
# Evaluating expressions

What an expression may be in a store: as a number, and as a value that may also be a pointer. The
two agree, as the number of the value is the number. Calls and what is not modelled may have any
value.
-/

namespace BufferBounds

namespace Expr

/-- What is known of the number that the expression stands for. -/
def number (s : Store) : Expr → Interval
  | .const value => .constant value
  | .var name => s.number name
  | .add lhs rhs => (lhs.number s).add (rhs.number s)
  | .sub lhs rhs => (lhs.number s).sub (rhs.number s)
  | .select thenArm elseArm => (thenArm.number s).join (elseArm.number s)
  | .call _ _ => .unknown
  | .unmodeled _ => .unknown

/-- The value that the expression stands for. Only variables, and choices between them, give
pointers. -/
def value (s : Store) : Expr → Value
  | .var name => (s.get? name).getD .top
  | .select thenArm elseArm => (thenArm.value s).join (elseArm.value s)
  | e => .scalar (e.number s)

/-- The variable that the expression reads, if it is only that and the variable holds a pointer. -/
def pointerSource? (s : Store) : Expr → Option String
  | .var name => if (s.pointer? name).isSome then some name else none
  | _ => none

end Expr

end BufferBounds
