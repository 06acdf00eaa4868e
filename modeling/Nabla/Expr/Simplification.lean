import Nabla.Expr.Rule

/-!
# Simplification

An expression is simplified from the leaves up: the operands of a node first, from left to right,
and then the node itself by `Rule.all` until no rule applies. The steps are listed in the order
they are taken.

An operand that simplifies to an equal expression is kept as it is. `simplifyUsing` takes the
choice between the operand and its simplified form as a parameter, so that this sharing can be
compared with always taking the simplified form.
-/

namespace Nabla.Expr

/-- Apply the rules to the root of an expression until none applies. -/
def settle (e : Expr) : Expr × List Step :=
  match _ : Rule.all e with
  | none => (e, [])
  | some (result, step) =>
      let (settled, steps) := settle result
      (settled, step :: steps)
termination_by e.nodeCount
decreasing_by exact Rule.nodeCount_lt ‹_›

/-- A choice between an operand and its simplified form. -/
abbrev Choice := (operand simplified : Expr) → Expr

/-- Keep an operand that equals its simplified form. -/
def keepEqual : Choice := fun operand simplified ↦
  if simplified.equals operand then operand else simplified

/-- Always take the simplified form. -/
def takeSimplified : Choice := fun _ simplified ↦ simplified

/-- Simplify an expression, with the given choice between operands and their simplified forms. -/
def simplifyUsing (choose : Choice) : Expr → Expr × List Step
  | constant value places => (constant value places, [])
  | symbol name => (symbol name, [])
  | neg operand =>
      let (simplified, steps) := operand.simplifyUsing choose
      let (settled, further) := settle (neg (choose operand simplified))
      (settled, steps ++ further)
  | binary operator left right =>
      let (simplifiedLeft, leftSteps) := left.simplifyUsing choose
      let (simplifiedRight, rightSteps) := right.simplifyUsing choose
      let (settled, further) :=
        settle (binary operator (choose left simplifiedLeft) (choose right simplifiedRight))
      (settled, leftSteps ++ rightSteps ++ further)
  | call function argument =>
      let (simplified, steps) := argument.simplifyUsing choose
      let (settled, further) := settle (call function (choose argument simplified))
      (settled, steps ++ further)

/-- Simplify an expression, and list the steps. -/
def simplifyWithSteps (e : Expr) : Expr × List Step := e.simplifyUsing keepEqual

/-- The simplified form of an expression. -/
def simplify (e : Expr) : Expr := e.simplifyWithSteps.1

end Nabla.Expr
