import Nabla.Binary32.Parts
import Nabla.Symbol

/-!
# Expressions

The expression tree: constants, symbols, negations, binary operations and function calls. A
constant remembers how many decimal places it is shown with.

Two expressions can be compared in two ways. `=` is identity, down to the sign of a zero, and it is
decidable. `Expr.equals` compares the constants as numbers, so the two zeros are equal and
not-a-number differs from itself.
-/

namespace Nabla

/-- A binary operator. -/
inductive Operator where
  | add
  | sub
  | mul
  | div
  | pow
deriving DecidableEq, Repr

/-- A function of one argument. -/
inductive Function where
  | sin
  | cos
  | ln
deriving DecidableEq, Repr

/-- An expression in the symbols `t`, `x`, `y` and `z`. -/
inductive Expr where
  /-- A number, shown with the given number of decimal places. -/
  | constant (value : Float32) (places : Nat)
  | symbol (name : Symbol)
  | neg (operand : Expr)
  | binary (operator : Operator) (left right : Expr)
  | call (function : Function) (argument : Expr)
deriving DecidableEq

/-- The character an operator is written with. -/
def Operator.character : Operator → Char
  | .add => '+'
  | .sub => '-'
  | .mul => '*'
  | .div => '/'
  | .pow => '^'

/-- The operator written with the given character. -/
def Operator.ofCharacter? : Char → Option Operator
  | '+' => some .add
  | '-' => some .sub
  | '*' => some .mul
  | '/' => some .div
  | '^' => some .pow
  | _ => none

/-- An operator is read back from its character. -/
theorem Operator.ofCharacter?_character (operator : Operator) :
    ofCharacter? operator.character = some operator := by
  cases operator <;> rfl

/-- The name a function is called by. -/
def Function.name : Function → String
  | .sin => "sin"
  | .cos => "cos"
  | .ln => "ln"

namespace Expr

/-- The sum of two expressions. -/
@[match_pattern] abbrev add (left right : Expr) : Expr := binary .add left right

/-- The difference of two expressions. -/
@[match_pattern] abbrev sub (left right : Expr) : Expr := binary .sub left right

/-- The product of two expressions. -/
@[match_pattern] abbrev mul (left right : Expr) : Expr := binary .mul left right

/-- The quotient of two expressions. -/
@[match_pattern] abbrev div (left right : Expr) : Expr := binary .div left right

/-- A power, by its base and its exponent. -/
@[match_pattern] abbrev pow (base exponent : Expr) : Expr := binary .pow base exponent

/-- The constant zero. -/
def zero : Expr := constant 0 0

/-- The constant one. -/
def one : Expr := constant 1 0

/-- Whether two expressions have the same shape and equal constants. Equality of constants is that
of numbers: zeros of either sign are equal, and not-a-number equals nothing. -/
def equals : Expr → Expr → Bool
  | constant value places, constant other otherPlaces => value == other && places == otherPlaces
  | symbol name, symbol other => name == other
  | neg operand, neg other => operand.equals other
  | binary operator left right, binary otherOperator otherLeft otherRight =>
      operator == otherOperator && left.equals otherLeft && right.equals otherRight
  | call function argument, call otherFunction otherArgument =>
      function == otherFunction && argument.equals otherArgument
  | _, _ => false

/-- Whether an expression is a constant. -/
def isConstant : Expr → Bool
  | constant .. => true
  | _ => false

/-- The number that a constant, or a negation of such an expression, stands for. -/
def number? : Expr → Option Float32
  | constant value _ => some value
  | neg operand => operand.number?.map (- ·)
  | _ => none

/-- The nearest integer to `n` that fits 64 bits with a sign. -/
def clampWord (n : Int) : Int := max (-Int.pow 2 63) (min n (Int.pow 2 63 - 1))

/-- A finite constant with its fraction cut off, limited to 64 bits. -/
def integer? : Expr → Option Int
  | constant value _ => (Binary32.truncate? value).map clampWord
  | _ => none

/-- Whether an expression is a constant that is cut off to zero. -/
def isZero (e : Expr) : Bool := e.integer? == some 0

/-- Whether an expression is a constant that is cut off to one. -/
def isOne (e : Expr) : Bool := e.integer? == some 1

/-- Whether an expression is a sum, a difference, a product or a quotient. -/
def isArithmetic : Expr → Bool
  | binary operator _ _ => operator != .pow
  | _ => false

/-- Whether a symbol occurs in an expression. -/
def contains (name : Symbol) : Expr → Bool
  | constant .. => false
  | symbol other => other == name
  | neg operand => operand.contains name
  | binary _ left right => left.contains name || right.contains name
  | call _ argument => argument.contains name

/-- The number of nodes of an expression. -/
def nodeCount : Expr → Nat
  | constant .. => 1
  | symbol _ => 1
  | neg operand => 1 + operand.nodeCount
  | binary _ left right => 1 + left.nodeCount + right.nodeCount
  | call _ argument => 1 + argument.nodeCount

/-- An expression has a node. -/
theorem nodeCount_pos (e : Expr) : 0 < e.nodeCount := by
  cases e <;> simp only [nodeCount] <;> omega

end Expr

end Nabla
