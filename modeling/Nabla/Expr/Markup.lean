import Nabla.Decimal.Fixed
import Nabla.Expr.Basic

/-!
# Expressions as text

An expression is written in one of two forms. The rich form slants symbols and raises exponents
with markup tags; the plain form uses `^`. A sum, difference, product or quotient in parentheses
stands wherever it is an operand. Nothing else is put in parentheses, except that the plain form
also wraps negations and powers that are an operand of a power.
-/

namespace Nabla

/-- The form an expression is written in. -/
inductive Markup where
  /-- Symbols in italics and exponents as superscripts. -/
  | html
  /-- Characters only. -/
  | plain
deriving DecidableEq, Repr

/-- A text in parentheses. -/
def parenthesize (text : List Char) : List Char := '(' :: text ++ [')']

/-- A text in parentheses if the condition holds. -/
def parenthesizeIf (condition : Bool) (text : List Char) : List Char :=
  if condition then parenthesize text else text

namespace Expr

/-- Whether an expression is a negation or a power. -/
def isNegationOrPower : Expr → Bool
  | neg _ => true
  | binary operator _ _ => operator == .pow
  | _ => false

/-- Whether an operand of a power is put in parentheses. -/
def wrapsInPower (markup : Markup) (operand : Expr) : Bool :=
  operand.isArithmetic || (markup == .plain && operand.isNegationOrPower)

/-- The characters of an expression. -/
def chars (markup : Markup) : Expr → List Char
  | constant value places => Decimal.fixedChars value places
  | symbol name =>
      match markup with
      | .html => "<i>".toList ++ [name.letter] ++ "</i>".toList
      | .plain => [name.letter]
  | neg operand => '-' :: parenthesizeIf operand.isArithmetic (operand.chars markup)
  | binary .pow base exponent =>
      let base := parenthesizeIf (base.wrapsInPower markup) (base.chars markup)
      let exponent := parenthesizeIf (exponent.wrapsInPower markup) (exponent.chars markup)
      match markup with
      | .html => base ++ "<sup>".toList ++ exponent ++ "</sup>".toList
      | .plain => base ++ ['^'] ++ exponent
  | binary operator left right =>
      parenthesizeIf left.isArithmetic (left.chars markup) ++
        [' ', operator.character, ' '] ++
        parenthesizeIf right.isArithmetic (right.chars markup)
  | call function argument => function.name.toList ++ parenthesize (argument.chars markup)

/-- The text of an expression. -/
def text (markup : Markup) (e : Expr) : String := String.ofList (e.chars markup)

/-- The plain text of an expression. -/
def plain (e : Expr) : String := e.text .plain

end Expr

end Nabla
