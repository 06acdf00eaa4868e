import Nabla.Proofs.Expr.NormalForm

/-!
# Steps and nodes

Every step of simplification removes at least one node, and steps taken in an operand are paid for
by the nodes of that operand, even if a later step throws the operand away. So an expression has at
least as many nodes as its simplified form and its steps together
(`nodeCount_simplifyWithSteps_le`). In particular no sequence of steps goes on forever, and only an
expression that is simplified without a step stays as it is.
-/

namespace Nabla.Expr

/-- A rule turns the second expression into the first. -/
def Follows (result e : Expr) : Prop := ∃ step, Rule.all e = some (result, step)

/-- There is no infinite sequence of steps at a root. -/
theorem wellFounded_follows : WellFounded Follows :=
  Subrelation.wf (fun ⟨_, h⟩ ↦ Rule.nodeCount_lt h) (measure nodeCount).wf

/-! ### At one node -/

/-- The steps at a root are paid for with its nodes. -/
theorem nodeCount_settle_le (e : Expr) :
    (settle e).1.nodeCount + (settle e).2.length ≤ e.nodeCount := by
  induction e using settle.induct with
  | case1 e hnone =>
    rw [settle_of_none hnone]
    exact Nat.le_refl _
  | case2 e result step hsome settled steps hsettle ih =>
    have hlt := Rule.nodeCount_lt hsome
    rw [settle_of_some hsome]
    show (settle result).1.nodeCount + ((settle result).2.length + 1) ≤ e.nodeCount
    omega

/-- A root that is settled without a step stays as it is. -/
theorem settle_fst_of_steps_eq_nil {e : Expr} (h : (settle e).2 = []) : (settle e).1 = e := by
  cases hrule : Rule.all e with
  | none => rw [settle_of_none hrule]
  | some result =>
    rw [settle_of_some hrule] at h
    cases h

/-! ### In a whole expression -/

/-- If each operand pays for its steps, all of them do. -/
theorem nodeCount_simplifyOperands_le {e : Expr}
    (h : ∀ operand ∈ e.operands,
      operand.simplify.nodeCount + operand.simplifyWithSteps.2.length ≤ operand.nodeCount) :
    e.simplifyOperands.nodeCount +
      (e.operands.flatMap fun operand ↦ operand.simplifyWithSteps.2).length ≤ e.nodeCount := by
  cases e with
  | constant | symbol => exact Nat.le_refl _
  | neg operand | call function operand =>
    have hoperand := h operand (by simp [operands])
    simp only [simplifyOperands, operands, List.flatMap_cons, List.flatMap_nil, List.append_nil,
      nodeCount]
    omega
  | binary operator left right =>
    have hleft := h left (by simp [operands])
    have hright := h right (by simp [operands])
    simp only [simplifyOperands, operands, List.flatMap_cons, List.flatMap_nil, List.append_nil,
      List.length_append, nodeCount]
    omega

/-- The steps of simplification are paid for with nodes. -/
theorem nodeCount_simplifyWithSteps_le (e : Expr) :
    e.simplify.nodeCount + e.simplifyWithSteps.2.length ≤ e.nodeCount := by
  induction e using operand_induction with
  | step e ih =>
    have hoperands := nodeCount_simplifyOperands_le ih
    have hroot := nodeCount_settle_le e.simplifyOperands
    rw [simplify_eq_settle, simplifyWithSteps_eq, List.length_append]
    omega

/-- An expression that is simplified without a step stays as it is. -/
theorem simplify_of_steps_eq_nil {e : Expr} (h : e.simplifyWithSteps.2 = []) : e.simplify = e := by
  induction e using operand_induction with
  | step e ih =>
    rw [simplifyWithSteps_eq] at h
    obtain ⟨hoperands, hroot⟩ := List.append_eq_nil_iff.1 h
    have hsame : e.simplifyOperands = e :=
      simplifyOperands_eq_self fun operand hmem ↦
        ih operand hmem (List.flatMap_eq_nil_iff.1 hoperands operand hmem)
    rw [hsame] at hroot
    rw [simplify_eq_settle, hsame]
    exact settle_fst_of_steps_eq_nil hroot

/-- A simplified expression and the steps to it are together no more than the nodes of the
expression. The expression stays as it is exactly if there is no step, and from no expression is
there an infinite sequence of steps. -/
theorem simplify_pays_with_nodes (e : Expr) :
    e.simplifyWithSteps.1.nodeCount + e.simplifyWithSteps.2.length ≤ e.nodeCount ∧
      (e.simplifyWithSteps.2 = [] ↔ e.simplifyWithSteps.1 = e) ∧
      Acc Follows e := by
  have hle : e.simplifyWithSteps.1.nodeCount + e.simplifyWithSteps.2.length ≤ e.nodeCount :=
    nodeCount_simplifyWithSteps_le e
  refine ⟨hle, ⟨simplify_of_steps_eq_nil, fun hsame ↦ ?_⟩, wellFounded_follows.apply e⟩
  rw [hsame] at hle
  exact List.length_eq_zero_iff.1 (by omega)

end Nabla.Expr
