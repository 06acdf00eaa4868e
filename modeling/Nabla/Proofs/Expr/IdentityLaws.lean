import Nabla.Proofs.Binary32.Integer
import Nabla.Proofs.Expr.NormalForm

/-!
# Identity laws of simplification

An expression that zero is added to or subtracted from, that is multiplied or divided by one, or
that is negated twice is simplified like the expression itself, and one that is subtracted from zero
like its negation (`simplify_identities`). Only the sign of a zero can differ: constants are folded
before the rules for zero and one are tried, and `-0 + 0` is folded to `0`.

One step takes such a context off a simplified expression (`TakenOff`), and what the step leaves is
simplified already. A negation needs a closer look, as it is settled over an expression that may be
a negation itself.
-/

namespace Nabla.Expr

open Binary32

/-! ### Equal expressions -/

/-- No constant of an expression is not-a-number. -/
def Numeric (e : Expr) : Prop :=
  ∀ value places, constant value places ∈ e.subexpressions → value.isNaN = false

/-- An operand of a numeric expression is numeric. -/
theorem Numeric.operand {e operand : Expr} (h : e.Numeric) (hmem : operand ∈ e.operands) :
    operand.Numeric :=
  fun value places hconstant ↦ h value places (mem_subexpressions_of_operand hmem hconstant)

/-- A constant is numeric unless it is not-a-number. -/
theorem numeric_constant {value : Float32} (h : value.isNaN = false) (places : Nat) :
    (constant value places).Numeric := by
  intro other otherPlaces hmem
  obtain ⟨rfl, -⟩ := constant.inj (List.mem_singleton.1 hmem)
  exact h

/-- The negation of a numeric expression is numeric. -/
theorem Numeric.neg {e : Expr} (h : e.Numeric) : (neg e).Numeric := by
  intro value places hmem
  rcases List.mem_cons.1 hmem with heq | hmem
  · cases heq
  · exact h value places hmem

/-- An expression without not-a-number equals itself. -/
theorem Numeric.equals_self {e : Expr} (h : e.Numeric) : e.equals e = true := by
  induction e with
  | constant value places =>
    have hsame : (value == value) = true :=
      beq_iff_sameNumber.2 ⟨.refl value, h value places (self_mem_subexpressions _)⟩
    rw [equals, hsame, Bool.true_and, beq_self_eq_true]
  | symbol name => exact beq_self_eq_true name
  | neg operand ih => exact ih (h.operand (by simp [operands]))
  | binary operator left right ihleft ihright =>
    rw [equals, beq_self_eq_true, ihleft (h.operand (by simp [operands])),
      ihright (h.operand (by simp [operands]))]
    rfl
  | call function argument ih =>
    rw [equals, beq_self_eq_true, ih (h.operand (by simp [operands]))]
    rfl

/-- Two expressions are identical, or they are constants with equally many places and the same
number. -/
inductive SameUpToZero : Expr → Expr → Prop where
  | refl (e : Expr) : SameUpToZero e e
  | constant {value other : Float32} (h : SameNumber value other) (places : Nat) :
      SameUpToZero (constant value places) (constant other places)

/-- Numeric expressions that differ in the signs of zeros only are equal. -/
theorem SameUpToZero.equals {e other : Expr} (h : SameUpToZero e other) (hnumeric : other.Numeric) :
    e.equals other = true := by
  cases h with
  | refl => exact hnumeric.equals_self
  | @constant value other hsame places =>
    have hnumber : value.isNaN = false := by
      rw [hsame.isNaN_eq]
      exact hnumeric other places (self_mem_subexpressions _)
    rw [Expr.equals, beq_iff_sameNumber.2 ⟨hsame, hnumber⟩, Bool.true_and, beq_self_eq_true]

/-! ### Contexts that are taken off -/

/-- One step takes the context off every expression. Where the expression is a constant, the step
folds the context into it. -/
def TakenOff (context : Expr → Expr) : Prop :=
  ∀ e, ∃ result step, Rule.all (context e) = some (result, step) ∧ SameUpToZero result e

/-- A simplified expression in a context that is taken off settles to itself. -/
theorem TakenOff.settle {context : Expr → Expr} (h : TakenOff context) {e : Expr}
    (hnormal : e.Normal) : SameUpToZero (settle (context e)).1 e := by
  obtain ⟨result, step, hrule, hsame⟩ := h e
  rw [settle_of_some hrule]
  cases hsame with
  | refl =>
    rw [settle_of_none (normal_iff.1 hnormal).1]
    exact .refl e
  | constant hsame places =>
    rw [settle_of_none rfl]
    exact .constant hsame places

/-- To fold zero or one into a constant keeps the number of its places. -/
theorem sameUpToZero_folded {value other : Float32} (h : SameNumber value other) (places : Nat) :
    SameUpToZero (constant value (max places 0)) (constant other places) := by
  rw [Nat.max_zero]
  exact .constant h places

/-- A zero that is added from the right is taken off. -/
theorem takenOff_add_zero : TakenOff fun e ↦ add e zero := by
  intro e
  cases e with
  | constant value places =>
    exact ⟨_, .foldConstants, rfl, sameUpToZero_folded (Binary32.add_zero isZero_zero value) places⟩
  | symbol | neg | binary | call => exact ⟨_, .addZero, rfl, .refl _⟩

/-- A zero that is added from the left is taken off. -/
theorem takenOff_zero_add : TakenOff fun e ↦ add zero e := by
  intro e
  cases e with
  | constant value places =>
    have hfolded := sameUpToZero_folded (Binary32.zero_add isZero_zero value) places
    rw [Nat.max_comm] at hfolded
    exact ⟨_, .foldConstants, rfl, hfolded⟩
  | symbol | neg | binary | call => exact ⟨_, .addZero, rfl, .refl _⟩

/-- A zero that is subtracted is taken off. -/
theorem takenOff_sub_zero : TakenOff fun e ↦ sub e zero := by
  intro e
  cases e with
  | constant value places =>
    exact ⟨_, .foldConstants, rfl, sameUpToZero_folded (Binary32.sub_zero isZero_zero value) places⟩
  | symbol | neg | binary | call => exact ⟨_, .subtractZero, rfl, .refl _⟩

/-- A one that is multiplied with from the right is taken off. -/
theorem takenOff_mul_one : TakenOff fun e ↦ mul e one := by
  intro e
  cases e with
  | constant value places =>
    refine ⟨_, .foldConstants, rfl, sameUpToZero_folded ?_ places⟩
    rw [Binary32.mul_one]
  | symbol | neg | binary | call => exact ⟨_, .multiplyOne, rfl, .refl _⟩

/-- A one that is multiplied with from the left is taken off. -/
theorem takenOff_one_mul : TakenOff fun e ↦ mul one e := by
  intro e
  cases e with
  | constant value places =>
    have hfolded := sameUpToZero_folded (.refl (1 * value)) places
    rw [Binary32.one_mul, Nat.max_comm] at hfolded
    refine ⟨_, .foldConstants, rfl, ?_⟩
    rwa [Binary32.one_mul]
  | symbol | neg | binary | call => exact ⟨_, .multiplyOne, rfl, .refl _⟩

/-- A one that is divided by is taken off. -/
theorem takenOff_div_one : TakenOff fun e ↦ div e one := by
  intro e
  cases e with
  | constant value places =>
    refine ⟨_, .foldConstants, rfl, sameUpToZero_folded ?_ places⟩
    rw [Binary32.div_one]
  | symbol | neg | binary | call => exact ⟨_, .divideOne, rfl, .refl _⟩

/-! ### Negations -/

/-- The negation of a constant settles to the negated constant. -/
theorem settle_neg_constant (value : Float32) (places : Nat) :
    (settle (neg (constant value places))).1 = constant (-value) places := by
  have hrule : Rule.all (neg (constant value places)) =
      some (constant (-value) places, .negateConstant) := rfl
  rw [settle_of_some hrule, settle_of_none rfl]

/-- A double negation of what is simplified settles to it. -/
theorem settle_neg_neg {operand : Expr} (h : operand.Normal) :
    (settle (neg (neg operand))).1 = operand := by
  have hrule : Rule.all (neg (neg operand)) = some (operand, .doubleNegation) := rfl
  rw [settle_of_some hrule, settle_of_none (normal_iff.1 h).1]

/-- A simplified expression whose negation is settled, negated and settled again comes back. -/
theorem settle_neg_settle_neg {e : Expr} (h : e.Normal) :
    (settle (neg (settle (neg e)).1)).1 = e := by
  cases hrule : Rule.all (neg e) with
  | none => rw [settle_of_none hrule, settle_neg_neg h]
  | some found =>
    cases e with
    | constant value places =>
      rw [settle_neg_constant, settle_neg_constant, Binary32.neg_neg]
    | neg operand =>
      -- the inner negations cancel, and what is left is negated as before
      rw [settle_neg_neg (h.operand (List.mem_singleton_self operand)),
        settle_of_none (normal_iff.1 h).1]
    | symbol | binary | call => cases hrule

/-- Settling a negation brings in no constant but the negation of one. -/
theorem Numeric.settle_neg {e : Expr} (h : e.Numeric) (hnormal : e.Normal) :
    (settle e.neg).1.Numeric := by
  cases e with
  | constant value places =>
    rw [settle_neg_constant]
    refine numeric_constant ?_ places
    rw [isNaN_neg]
    exact h value places (self_mem_subexpressions _)
  | neg operand =>
    have hmem : operand ∈ operand.neg.operands := List.mem_singleton_self operand
    rw [settle_neg_neg (hnormal.operand hmem)]
    exact h.operand hmem
  | symbol | binary | call =>
    rw [settle_of_none rfl]
    exact h.neg

/-- Subtracting a simplified expression from zero settles like its negation. -/
theorem settle_zero_sub (e : Expr) :
    SameUpToZero (settle (sub zero e)).1 (settle (neg e)).1 := by
  cases e with
  | constant value places =>
    have hrule : Rule.all (sub zero (constant value places)) =
        some (constant (0 - value) (max 0 places), .foldConstants) := rfl
    rw [settle_of_some hrule, settle_of_none rfl, settle_neg_constant, Nat.max_comm]
    exact sameUpToZero_folded (Binary32.zero_sub isZero_zero value) places
  | symbol | neg | binary | call =>
    rw [settle_of_some (show Rule.all (sub zero _) = some (neg _, .zeroMinus) from rfl)]
    exact .refl _

/-! ### Simplification -/

/-- If no constant of its simplified form is not-a-number, an expression is simplified to the same
with zero added or subtracted, multiplied or divided by one, and negated twice, and it is subtracted
from zero like it is negated. -/
theorem simplify_identities {e : Expr} (h : e.simplify.Numeric) :
    (add e zero).simplify.equals e.simplify = true ∧
      (add zero e).simplify.equals e.simplify = true ∧
      (sub e zero).simplify.equals e.simplify = true ∧
      (mul e one).simplify.equals e.simplify = true ∧
      (mul one e).simplify.equals e.simplify = true ∧
      (div e one).simplify.equals e.simplify = true ∧
      (neg (neg e)).simplify.equals e.simplify = true ∧
      (sub zero e).simplify.equals (neg e).simplify = true := by
  have hnormal : e.simplify.Normal := e.normal_simplify
  have hneg : (neg e).simplify = (settle (neg e.simplify)).1 := simplify_eq_settle (neg e)
  have htaken {context : Expr → Expr} (htaken : TakenOff context) {whole : Expr}
      (hwhole : whole.simplifyOperands = context e.simplify) :
      whole.simplify.equals e.simplify = true := by
    rw [simplify_eq_settle, hwhole]
    exact (htaken.settle hnormal).equals h
  refine ⟨htaken takenOff_add_zero rfl, htaken takenOff_zero_add rfl, htaken takenOff_sub_zero rfl,
    htaken takenOff_mul_one rfl, htaken takenOff_one_mul rfl, htaken takenOff_div_one rfl, ?_, ?_⟩
  · have hdouble : (neg (neg e)).simplify = e.simplify := by
      rw [simplify_eq_settle, simplifyOperands, hneg]
      exact settle_neg_settle_neg hnormal
    rw [hdouble]
    exact h.equals_self
  · rw [simplify_eq_settle, hneg]
    exact (settle_zero_sub e.simplify).equals (h.settle_neg hnormal)

/-- The expression `1.5 * -(0) - 0`, which simplifies to a negative zero. -/
def negativeZero : Expr := sub (mul (constant 1.5 1) (neg (constant 0 0))) (constant 0 0)

/-- For a negative zero the simplified forms are equal without being identical. -/
theorem simplify_identities_negative_zero :
    negativeZero.simplify = constant (-0) 1 ∧ (add negativeZero zero).simplify = constant 0 1 ∧
      negativeZero.simplify.Numeric ∧
      (add negativeZero zero).simplify.equals negativeZero.simplify = true := by
  have hsimplify : negativeZero.simplify = constant (-0) 1 := by decide +kernel
  have hnumeric : negativeZero.simplify.Numeric := by
    rw [hsimplify]
    exact numeric_constant (by decide +kernel) 1
  exact ⟨hsimplify, by decide +kernel, hnumeric, (simplify_identities hnumeric).1⟩

end Nabla.Expr
