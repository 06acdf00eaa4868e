import Nabla.Expr.Basic
import Nabla.Text.Span

/-!
# Faults in a text

Why a text is not an expression, and where. A `Fault` is a cause together with the regions of the
text it points at. The wording of every fault is given here: a message, the label of a region, and
for most causes a help text.
-/

namespace Nabla.Formula

/-- Why a text is not an expression. -/
inductive Cause where
  /-- There is nothing to read. -/
  | emptyInput
  /-- A parenthesis has no partner; it is an opening one if `opening` holds. -/
  | unbalancedParentheses (opening : Bool)
  /-- A character is part of no token. -/
  | illegalCharacter (character : Char)
  /-- An operator is known from elsewhere but not supported. -/
  | unknownOperator (operator : Char)
  /-- A binary operator has nothing to its left. -/
  | missingLeftOperand (operator : Char)
  /-- An operator has nothing to its right. -/
  | missingRightOperand (operator : Char)
  /-- A text between operators is neither a symbol nor a number. -/
  | notALeaf (leaf : List Char)
  /-- A number has more than one decimal point. -/
  | multipleDecimalPoints
  /-- A symbol is not allowed in the mode. -/
  | symbolNotAllowed (symbol : Symbol) (mode : Mode)
  /-- A function name is not followed by an argument in parentheses. -/
  | missingFunctionArgument (function : Function)
  /-- Two operands have no operator between them. -/
  | missingOperator
deriving DecidableEq

/-- A cause and the regions it points at. -/
abbrev Fault := Text.Report Cause

namespace Cause

/-- The headline of a fault. -/
def message : Cause → String
  | emptyInput => "nothing to parse"
  | unbalancedParentheses _ => "unbalanced parentheses"
  | illegalCharacter character => "illegal character `" ++ character.toString ++ "`"
  | unknownOperator operator => "unknown operator `" ++ operator.toString ++ "`"
  | missingLeftOperand _ => "missing left operand"
  | missingRightOperand _ => "missing right operand"
  | notALeaf leaf => "`" ++ String.ofList leaf ++ "` is not a symbol or a number"
  | multipleDecimalPoints => "a number cannot contain more than one decimal point"
  | symbolNotAllowed symbol mode =>
      "the symbol `" ++ symbol.letter.toString ++ "` cannot be used in " ++ mode.name ++
        " expressions"
  | missingFunctionArgument function => "missing argument to `" ++ function.name ++ "`"
  | missingOperator => "missing operator"

/-- The label of the region a fault points at. -/
def label : Cause → String
  | emptyInput => "I expected to see an expression here"
  | unbalancedParentheses true => "this parenthesis is never closed"
  | unbalancedParentheses false => "this parenthesis closes nothing"
  | illegalCharacter _ => "here"
  | unknownOperator _ => "this operator"
  | missingLeftOperand operator =>
      "I expected to see an expression to the left of this `" ++ operator.toString ++ "`"
  | missingRightOperand operator =>
      "I expected to see an expression to the right of this `" ++ operator.toString ++ "`"
  | notALeaf _ => "this"
  | multipleDecimalPoints => "this number"
  | symbolNotAllowed _ _ => "this symbol"
  | missingFunctionArgument _ => "this function"
  | missingOperator => "I could not connect this to the rest of the expression"

/-- Which symbols to use instead of one that is not allowed. -/
def symbolHelp : Mode → String
  | .constant => "this expression must be a constant"
  | .singleVariable => "use t as the variable"
  | .multiVariable => "use x, y and z as the variables"

/-- What to do about a fault, where there is something to say. -/
def help? : Cause → Option String
  | emptyInput => none
  | unbalancedParentheses true => some "add a closing parenthesis `)` somewhere after this"
  | unbalancedParentheses false => some "add an opening parenthesis `(` somewhere before this"
  | illegalCharacter _ =>
      some ("expressions may only contain numbers, the symbols t, x, y, z, parentheses, " ++
        "+ - * / ^ and sin / cos")
  | unknownOperator _ => some "the supported operators are + - * / ^"
  | missingLeftOperand _ => none
  | missingRightOperand operator =>
      some (if operator = '-' then
        "a `-` directly followed by a space is a subtraction; remove the space for a negation"
      else "remove the operator, or add an operand after it")
  | notALeaf _ => some "separate values with an operator, such as *"
  | multipleDecimalPoints => none
  | symbolNotAllowed _ mode => some (symbolHelp mode)
  | missingFunctionArgument function =>
      some ("write the argument in parentheses, such as " ++ function.name ++ "(x)")
  | missingOperator => some "add an operator, such as *, before it"

end Cause

end Nabla.Formula
