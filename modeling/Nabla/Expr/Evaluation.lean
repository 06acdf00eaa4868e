import Nabla.Binary32.Elementary
import Nabla.Expr.Basic

/-!
# Evaluation

The value of an expression at a point. Every operation rounds once. A quotient is guarded: where
the denominator is at most `denominatorGuard`, whatever its sign, the value is `guardedQuotient`.
The symbols `t` and `x` both read the first coordinate.
-/

namespace Nabla.Expr

/-- A point, or the values of the symbols. -/
structure Point where
  x : Float32
  y : Float32
  z : Float32

/-- The greatest denominator that is not divided by. -/
def denominatorGuard : Float32 := 1e-5

/-- The value of a quotient that is not divided. -/
def guardedQuotient : Float32 := 1e9

/-- The value of a symbol at a point. -/
def Point.value (point : Point) : Symbol → Float32
  | .t => point.x
  | .x => point.x
  | .y => point.y
  | .z => point.z

/-- The guarded quotient of two numbers. -/
def quotient (numerator denominator : Float32) : Float32 :=
  if denominator ≤ denominatorGuard then guardedQuotient else numerator / denominator

/-- The value of an operator. -/
def applyOperator : Operator → Float32 → Float32 → Float32
  | .add, left, right => left + right
  | .sub, left, right => left - right
  | .mul, left, right => left * right
  | .div, left, right => quotient left right
  | .pow, left, right => Binary32.pow left right

/-- The value of a function. -/
def applyFunction : Function → Float32 → Float32
  | .sin, argument => Binary32.sin argument
  | .cos, argument => Binary32.cos argument
  | .ln, argument => Binary32.ln argument

/-- The value of an expression at a point. -/
def eval (point : Point) : Expr → Float32
  | constant value _ => value
  | symbol name => point.value name
  | neg operand => -operand.eval point
  | binary operator left right =>
      applyOperator operator (left.eval point) (right.eval point)
  | call function argument => applyFunction function (argument.eval point)

/-- The value of an expression of the curve parameter. -/
def evalAt (t : Float32) (e : Expr) : Float32 := e.eval ⟨t, 0, 0⟩

end Nabla.Expr
