import Nabla.Expr.Basic

/-!
# Precedence

How tightly an operator binds: first by the number of parentheses around it, then by its rank.
Operators are built from the tightest to the loosest, and of equals the rightmost is built first,
so that chains of one rank nest to the right.
-/

namespace Nabla.Formula

/-- The rank of an operator, from the loosest to the tightest. -/
inductive Rank where
  | term
  | factor
  | power
deriving DecidableEq, Repr

/-- The place of a rank in the order. -/
def Rank.level : Rank → Nat
  | .term => 0
  | .factor => 1
  | .power => 2

end Nabla.Formula

namespace Nabla

/-- The rank of an operator. -/
def Operator.rank : Operator → Formula.Rank
  | .add => .term
  | .sub => .term
  | .mul => .factor
  | .div => .factor
  | .pow => .power

end Nabla

namespace Nabla.Formula

/-- The binding strength of an operator. -/
structure Precedence where
  depth : Nat
  rank : Rank
deriving DecidableEq, Repr

namespace Precedence

/-- Whether the first of two operators binds no tighter than the second. -/
def le (p q : Precedence) : Bool :=
  p.depth < q.depth || (p.depth == q.depth && p.rank.level ≤ q.rank.level)

/-- A precedence as text. -/
def text (p : Precedence) : String := toString p.depth ++ "." ++ toString p.rank.level

end Precedence

/-- An operator in a text. Its index is its place among the lexemes or its byte position. -/
structure Occurrence where
  index : Nat
  operator : Operator
  precedence : Precedence
deriving DecidableEq

namespace Occurrence

/-- An operator inside the given number of parentheses. -/
def ofDepth (index : Nat) (operator : Operator) (depth : Nat) : Occurrence :=
  ⟨index, operator, depth, operator.rank⟩

/-- Whether the first of two operators may be built before the second: it binds tighter, or equally
tight and does not stand to the left of it. -/
def comesFirst (a b : Occurrence) : Bool :=
  if a.precedence = b.precedence then b.index ≤ a.index else b.precedence.le a.precedence

end Occurrence

/-- Put an operator in front of the first one that it may be built before. -/
def insertOccurrence (occurrence : Occurrence) : List Occurrence → List Occurrence
  | [] => [occurrence]
  | first :: rest =>
      if occurrence.comesFirst first then occurrence :: first :: rest
      else first :: insertOccurrence occurrence rest

/-- The operators in the order they are built. -/
def constructionOrder (operators : List Occurrence) : List Occurrence :=
  operators.foldr insertOccurrence []

end Nabla.Formula
