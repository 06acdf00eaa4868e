import Nabla.Expr.Basic

/-!
# Operand pools

The operands that no operator has taken yet, in the order of their indices. An operator takes the
nearest operand on either side of it.
-/

namespace Nabla.Formula

/-- Operands by index. No two have the same index. -/
structure OperandPool where
  entries : List (Nat × Expr)
  increasing : entries.Pairwise fun a b ↦ a.1 < b.1

namespace OperandPool

/-- The pool without operands. -/
def empty : OperandPool := ⟨[], .nil⟩

/-- The number of operands. -/
def size (pool : OperandPool) : Nat := pool.entries.length

/-- Whether there is no operand. -/
def isEmpty (pool : OperandPool) : Bool := pool.entries.isEmpty

/-- The operands to the left of an index. -/
def left (pool : OperandPool) (index : Nat) : List (Nat × Expr) :=
  pool.entries.filter (·.1 < index)

/-- The operands to the right of an index. -/
def right (pool : OperandPool) (index : Nat) : List (Nat × Expr) :=
  pool.entries.filter (index < ·.1)

/-- The operands to the left of an index have increasing indices. -/
theorem increasing_left (pool : OperandPool) (index : Nat) :
    (pool.left index).Pairwise fun a b ↦ a.1 < b.1 :=
  pool.increasing.filter _

/-- The operands to the right of an index have increasing indices. -/
theorem increasing_right (pool : OperandPool) (index : Nat) :
    (pool.right index).Pairwise fun a b ↦ a.1 < b.1 :=
  pool.increasing.filter _

/-- What is to the left of an index has a smaller one. -/
theorem lt_of_mem_left {pool : OperandPool} {index : Nat} {entry : Nat × Expr}
    (h : entry ∈ pool.left index) : entry.1 < index := by
  simpa using (List.mem_filter.1 h).2

/-- What is to the right of an index has a greater one. -/
theorem lt_of_mem_right {pool : OperandPool} {index : Nat} {entry : Nat × Expr}
    (h : entry ∈ pool.right index) : index < entry.1 := by
  simpa using (List.mem_filter.1 h).2

/-- Put an operand at an index, in place of the one that is there. -/
def insert (pool : OperandPool) (index : Nat) (operand : Expr) : OperandPool where
  entries := pool.left index ++ (index, operand) :: pool.right index
  increasing := by
    refine List.pairwise_append.2 ⟨pool.increasing_left index, ?_, ?_⟩
    · exact List.pairwise_cons.2
        ⟨fun _ hentry ↦ lt_of_mem_right hentry, pool.increasing_right index⟩
    · intro before hbefore after hafter
      have hlt := lt_of_mem_left hbefore
      rcases List.mem_cons.1 hafter with rfl | hafter
      · exact hlt
      · exact Nat.lt_trans hlt (lt_of_mem_right hafter)

/-- Remove the operand at an index. -/
def erase (pool : OperandPool) (index : Nat) : OperandPool where
  entries := pool.entries.filter (·.1 != index)
  increasing := pool.increasing.filter _

/-- The pool with the given operands put in one after the other. -/
def ofList (operands : List (Nat × Expr)) : OperandPool :=
  operands.foldl (fun pool (index, operand) ↦ pool.insert index operand) empty

/-- The nearest operand to the left of an index, and the pool without it. -/
def takeLeft? (pool : OperandPool) (index : Nat) : Option (Expr × OperandPool) :=
  (pool.left index).getLast?.map fun (nearest, operand) ↦ (operand, pool.erase nearest)

/-- The nearest operand to the right of an index, and the pool without it. -/
def takeRight? (pool : OperandPool) (index : Nat) : Option (Expr × OperandPool) :=
  (pool.right index).head?.map fun (nearest, operand) ↦ (operand, pool.erase nearest)

end OperandPool

end Nabla.Formula
