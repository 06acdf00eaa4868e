import Nabla.Expr.Basic

/-!
# Nodes of expressions

The leaves of an expression from left to right, and the labels of its inner nodes. Together these
are all its nodes.
-/

namespace Nabla.Expr

/-- What an inner node of an expression does with its operands. -/
inductive Label where
  | neg
  | binary (operator : Operator)
  | call (function : Function)
deriving DecidableEq

/-- The constants and symbols of an expression, from left to right. -/
def leaves : Expr → List Expr
  | constant value places => [constant value places]
  | symbol name => [symbol name]
  | neg operand => operand.leaves
  | binary _ left right => left.leaves ++ right.leaves
  | call _ argument => argument.leaves

/-- The labels of the inner nodes of an expression, from the root on. -/
def labels : Expr → List Label
  | constant .. => []
  | symbol _ => []
  | neg operand => .neg :: operand.labels
  | binary operator left right => .binary operator :: (left.labels ++ right.labels)
  | call function argument => .call function :: argument.labels

/-- The number of inner nodes with a label. -/
def countOf (label : Label) (e : Expr) : Nat := e.labels.count label

/-- Every node is a leaf or has a label. -/
theorem nodeCount_eq (e : Expr) : e.nodeCount = e.leaves.length + e.labels.length := by
  induction e with
  | constant | symbol => rfl
  | neg operand ih | call function operand ih =>
    rw [nodeCount, leaves, labels, List.length_cons, ih]
    omega
  | binary operator left right ihleft ihright =>
    rw [nodeCount, leaves, labels, List.length_cons, List.length_append, List.length_append, ihleft,
      ihright]
    omega

end Nabla.Expr
