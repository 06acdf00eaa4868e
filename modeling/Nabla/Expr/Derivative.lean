import Nabla.Expr.Basic

/-!
# Symbolic derivatives

The derivative of an expression with respect to a symbol, by the rules for sums, products,
quotients and powers. The derivatives of sine, cosine and logarithm are taken as if their argument
were the symbol: there is no chain rule. Nothing is simplified.
-/

namespace Nabla.Expr

/-- The derivative of a binary operation, given the derivatives of its operands. -/
def operatorDerivative (operator : Operator) (f g f' g' : Expr) : Expr :=
  match operator with
  | .add => add f' g'
  | .sub => sub f' g'
  | .mul => add (mul f g') (mul g f')
  | .div => div (sub (mul g f') (mul f g')) (mul g g)
  | .pow => mul (pow f g) (add (mul g' (call .ln f)) (div (mul g f') f))

/-- The derivative of a function at its argument. -/
def functionDerivative (function : Function) (argument : Expr) : Expr :=
  match function with
  | .sin => call .cos argument
  | .cos => neg (call .sin argument)
  | .ln => div one argument

/-- The derivative with respect to a symbol, or to a name that is no symbol. -/
def derivativeBy (name : Option Symbol) : Expr → Expr
  | constant .. => zero
  | symbol other => if some other = name then one else zero
  | neg operand => neg (operand.derivativeBy name)
  | binary operator left right =>
      operatorDerivative operator left right (left.derivativeBy name) (right.derivativeBy name)
  | call function argument => functionDerivative function argument

/-- The derivative with respect to a symbol. -/
def derivative (name : Symbol) (e : Expr) : Expr := e.derivativeBy (some name)

/-- The derivative with respect to a letter, which need not be a symbol. -/
def derivativeByLetter (letter : Char) (e : Expr) : Expr :=
  e.derivativeBy (Symbol.ofLetter? letter)

end Nabla.Expr
