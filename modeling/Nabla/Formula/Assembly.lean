import Nabla.Formula.OperandPool
import Nabla.Formula.Recorded

/-!
# Assembly

How leaves and operators become a tree. The operators are built in their construction order. Each
takes the nearest operand on either side and leaves its result at its own index, where a later
operator can take it. In the end one operand is left.
-/

namespace Nabla.Formula

/-- How faults of an assembly point into the text: the region of an index, and the region for an
assembly without any operand. -/
structure Regions where
  ofIndex : Nat → Text.Span
  ofEmpty : Text.Span

/-- The only operand of a pool. A second one lacks an operator in front of it. -/
def OperandPool.single (regions : Regions) (pool : OperandPool) : Except Fault Expr :=
  match pool.entries with
  | [] => .error ⟨.emptyInput, [regions.ofEmpty]⟩
  | [(_, operand)] => .ok operand
  | _ :: (second, _) :: _ => .error ⟨.missingOperator, [regions.ofIndex second]⟩

/-- The operands of an operator, taken from the pool, and the pool that is left. The left operand is
missed first. -/
def takeOperands (regions : Regions) (pool : OperandPool) (occurrence : Occurrence) :
    Except Fault (Expr × Expr × OperandPool) :=
  let character := occurrence.operator.character
  match pool.takeLeft? occurrence.index with
  | none => .error ⟨.missingLeftOperand character, [regions.ofIndex occurrence.index]⟩
  | some (left, rest) =>
      match rest.takeRight? occurrence.index with
      | none => .error ⟨.missingRightOperand character, [regions.ofIndex occurrence.index]⟩
      | some (right, rest) => .ok (left, right, rest)

/-- Build the operators in the given order from the operands of a pool. -/
def assemble (regions : Regions) (pool : OperandPool) : List Occurrence → Recorded Expr
  | [] => .ofExcept (pool.single regions)
  | occurrence :: rest =>
      match takeOperands regions pool occurrence with
      | .error fault => .fail fault
      | .ok (left, right, remaining) =>
          let result := Expr.binary occurrence.operator left right
          (assemble regions (remaining.insert occurrence.index result) rest).noting
            (.built occurrence.index result)

/-- The leaves of a range, and its operators from left to right. -/
structure Gathered where
  pool : OperandPool
  operators : List Occurrence

/-- Nothing read yet. -/
def Gathered.empty : Gathered := ⟨.empty, []⟩

/-- With one more leaf. -/
def Gathered.addLeaf (gathered : Gathered) (index : Nat) (leaf : Expr) : Gathered :=
  { gathered with pool := gathered.pool.insert index leaf }

/-- With one more operator, in front of the others. -/
def Gathered.addOperator (gathered : Gathered) (occurrence : Occurrence) : Gathered :=
  { gathered with operators := occurrence :: gathered.operators }

/-- Build the operators of a range in their construction order. Without operators the only leaf is
the tree. -/
def Gathered.construct (gathered : Gathered) (regions : Regions) (start stop : Nat) :
    Recorded Expr :=
  if gathered.operators.isEmpty then .ofExcept (gathered.pool.single regions)
  else
    let order := constructionOrder gathered.operators
    (assemble regions gathered.pool order).noting (.operators start stop order)

/-- Build the tree of the range from `start` to `stop`. -/
def Gathered.build (gathered : Gathered) (regions : Regions) (start stop : Nat) : Recorded Expr :=
  (gathered.construct regions start stop).noting (.leaves start stop gathered.pool.entries)

end Nabla.Formula
