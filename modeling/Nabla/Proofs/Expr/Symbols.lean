import Mathlib.Tactic.Tauto
import Nabla.Expr.Derivative
import Nabla.Proofs.Expr.NormalForm

/-!
# Symbols of derivatives and simplified expressions

Neither a derivative nor a simplified expression has a symbol that the expression itself has not.
-/

namespace Nabla.Expr

variable {name : Symbol} {e : Expr}

/-! ### Simplification -/

/-- A step brings in no symbol. -/
theorem Rewrites.contains {result : Expr} (hstep : Rewrites e result)
    (h : result.contains name = true) : e.contains name = true := by
  cases hstep with
  | fold | negateConstant | zeroMul | mulZero | zeroDiv => cases h
  | doubleNegation => exact h
  | zeroAdd | oneMul => simp [Expr.contains, h]
  | addZero | subZero | mulOne | divOne => simp [Expr.contains, h]
  | zeroSub right hzero =>
    simp only [Expr.contains] at h
    simp [Expr.contains, h]
  | subNeg left operand => exact h

/-- Settling brings in no symbol. -/
theorem contains_of_settle (h : (settle e).1.contains name = true) : e.contains name = true := by
  induction e using settle.induct with
  | case1 e hnone => rwa [settle_of_none hnone] at h
  | case2 e result step hsome settled steps hsettle ih =>
    rw [settle_of_some hsome] at h
    exact (Rule.rewrites_of_all hsome).contains (ih h)

/-- The symbols of a simplified expression are symbols of the expression. -/
theorem contains_of_simplify (h : e.simplify.contains name = true) : e.contains name = true := by
  induction e using operand_induction with
  | step e ih =>
    rw [simplify_eq_settle] at h
    have hoperands := contains_of_settle h
    cases e with
    | constant | symbol => exact hoperands
    | neg operand => exact ih operand (by simp [operands]) hoperands
    | binary operator left right =>
      rcases Bool.or_eq_true_iff.1 hoperands with hleft | hright
      · exact Bool.or_eq_true_iff.2 (.inl (ih left (by simp [operands]) hleft))
      · exact Bool.or_eq_true_iff.2 (.inr (ih right (by simp [operands]) hright))
    | call function argument => exact ih argument (by simp [operands]) hoperands

/-! ### Derivatives -/

/-- The derivative of a function brings in no symbol. -/
theorem contains_of_functionDerivative {function : Function} {argument : Expr}
    (h : (functionDerivative function argument).contains name = true) :
    argument.contains name = true := by
  cases function with
  | sin | cos => exact h
  | ln => simpa [functionDerivative, one, contains] using h

/-- The derivative of an operator brings in no symbol. -/
theorem contains_of_operatorDerivative {operator : Operator} {f g f' g' : Expr}
    (h : (operatorDerivative operator f g f' g').contains name = true) :
    (f.contains name = true ∨ f'.contains name = true) ∨
      (g.contains name = true ∨ g'.contains name = true) := by
  cases operator <;> simp only [operatorDerivative, contains, Bool.or_eq_true] at h <;> tauto

/-- A derivative brings in no symbol. -/
theorem contains_of_derivativeBy {letter : Option Symbol}
    (h : (e.derivativeBy letter).contains name = true) : e.contains name = true := by
  induction e with
  | constant value places => cases h
  | symbol other =>
    unfold derivativeBy at h
    split at h <;> cases h
  | neg operand ih => exact ih h
  | binary operator left right ihleft ihright =>
    refine Bool.or_eq_true_iff.2 ?_
    rcases contains_of_operatorDerivative h with (hleft | hleft) | (hright | hright)
    · exact .inl hleft
    · exact .inl (ihleft hleft)
    · exact .inr hright
    · exact .inr (ihright hright)
  | call function argument ih =>
    have hargument : argument.contains name = true := contains_of_functionDerivative h
    exact hargument

/-- The symbols of a derivative are symbols of the expression. -/
theorem contains_of_derivative {other : Symbol}
    (h : (e.derivative other).contains name = true) : e.contains name = true :=
  contains_of_derivativeBy h

end Nabla.Expr
