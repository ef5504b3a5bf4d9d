import BufferBounds.Bound

/-!
# Expressions

The integer and pointer expressions of a function, as far as they are modelled. What a front end
could not express is kept as its text and has an unknown value.
-/

namespace BufferBounds

/-- An expression. -/
inductive Expr where
  /-- an integer literal -/
  | const (value : Int64)
  /-- the value of a variable -/
  | var (name : String)
  /-- a sum -/
  | add (lhs rhs : Expr)
  /-- a difference -/
  | sub (lhs rhs : Expr)
  /-- one of two expressions, on a condition that is not modelled -/
  | select (thenArm elseArm : Expr)
  /-- a call; allocators are known by their name, any other call may return anything -/
  | call (callee : String) (args : List Expr)
  /-- a construct that is not modelled -/
  | unmodeled (text : String)

namespace Expr

mutual

/-- The expression as it would be written, without brackets around operands. -/
protected def toString : Expr → String
  | .const value => toString value.toInt
  | .var name => name
  | .add lhs rhs => lhs.toString ++ " + " ++ rhs.toString
  | .sub lhs rhs => lhs.toString ++ " - " ++ rhs.toString
  | .select thenArm elseArm => "? " ++ thenArm.toString ++ " : " ++ elseArm.toString
  | .call callee args => callee ++ "(" ++ ", ".intercalate (Expr.texts args) ++ ")"
  | .unmodeled text => "<" ++ text ++ ">"

/-- Each expression as it would be written. -/
protected def texts : List Expr → List String
  | [] => []
  | e :: es => e.toString :: Expr.texts es

end

instance : ToString Expr := ⟨Expr.toString⟩

end Expr

end BufferBounds
