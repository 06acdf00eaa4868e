import Nabla.Proofs.Expr.StepCount

/-!
# Sharing of operands

An operand that equals its simplified form may be kept in place of it. Equality does not tell the
two zeros apart, so that the two are equal does not say that they are the same. But an equal
expression has as many nodes, and every step removes one: where an operand equals its simplified
form, no step was taken in it (`simplifyWithSteps_of_equals`). So whatever choice is made between
equal expressions, the simplified expression and the steps are those of taking the simplified
operands.
-/

namespace Nabla.Expr

/-- An expression that equals its simplified form is simplified without a step. -/
theorem simplifyWithSteps_of_equals {e : Expr} (h : e.simplify.equals e = true) :
    e.simplifyWithSteps = (e, []) := by
  have hcount : e.simplify.nodeCount = e.nodeCount := nodeCount_eq_of_equals h
  have hpaid := nodeCount_simplifyWithSteps_le e
  have hsteps : e.simplifyWithSteps.2 = [] := List.length_eq_zero_iff.1 (by omega)
  exact Prod.ext (simplify_of_steps_eq_nil hsteps) hsteps

/-- A choice that keeps an operand only where the operand equals its simplified form. -/
def Choice.KeepsOnlyEqual (choose : Choice) : Prop :=
  ∀ operand simplified, choose operand simplified = simplified ∨
    simplified.equals operand = true ∧ choose operand simplified = operand

/-- What is kept is equal to what is simplified. -/
theorem keepsOnlyEqual_keepEqual : Choice.KeepsOnlyEqual keepEqual := by
  intro operand simplified
  unfold keepEqual
  split
  · rename_i hequals
    exact .inr ⟨hequals, rfl⟩
  · exact .inl rfl

/-- Where nothing is kept there is nothing to show. -/
theorem keepsOnlyEqual_takeSimplified : Choice.KeepsOnlyEqual takeSimplified :=
  fun _ _ ↦ .inl rfl

variable {choose : Choice}

/-- An operand is kept only where it is its simplified form. -/
theorem Choice.KeepsOnlyEqual.choose_simplify (h : choose.KeepsOnlyEqual) (e : Expr) :
    choose e e.simplify = e.simplify := by
  rcases h e e.simplify with htaken | ⟨hequals, hkept⟩
  · exact htaken
  · rw [hkept]
    exact (congrArg Prod.fst (simplifyWithSteps_of_equals hequals)).symm

/-- Simplification is the same for every choice that keeps only equal operands. -/
theorem Choice.KeepsOnlyEqual.simplifyUsing_eq (h : choose.KeepsOnlyEqual) (e : Expr) :
    e.simplifyUsing choose = e.simplifyWithSteps := by
  induction e using operand_induction with
  | step e ih =>
    rw [simplifyUsing_of_choice ih fun operand _ ↦ h.choose_simplify operand, simplifyWithSteps_eq]

/-- To keep operands that equal their simplified forms gives the same expression and the same steps
as always to take the simplified forms. Where the two are equal, they are the same, and there was no
step. -/
theorem sharing_changes_nothing (e : Expr) :
    e.simplifyUsing keepEqual = e.simplifyUsing takeSimplified ∧
      (e.simplify.equals e = true → e.simplifyWithSteps = (e, [])) := by
  have hkept := keepsOnlyEqual_keepEqual.simplifyUsing_eq e
  have htaken := keepsOnlyEqual_takeSimplified.simplifyUsing_eq e
  exact ⟨hkept.trans htaken.symm, simplifyWithSteps_of_equals⟩

/-- A negative zero in an exponent stays, though it equals the positive one. -/
theorem sharing_keeps_negative_zero :
    let e : Expr := pow (symbol .x) (constant (-0) 1)
    e.simplify.equals e = true ∧ e.equals (pow (symbol .x) (constant 0 1)) = true ∧
      e.simplifyUsing takeSimplified = (e, []) := by
  intro e
  have hequals : e.simplify.equals e = true := by decide +kernel
  obtain ⟨hsame, hnothing⟩ := sharing_changes_nothing e
  exact ⟨hequals, by decide +kernel, hsame.symm.trans (hnothing hequals)⟩

end Nabla.Expr
