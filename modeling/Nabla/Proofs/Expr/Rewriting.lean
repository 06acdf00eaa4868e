import Nabla.Expr.Rule

/-!
# Rewriting steps

`Rewrites` lists what the simplification rules can do to the root of an expression, one case for
each shape and side condition. `rewrites_of_all` says that the rules do nothing else: a property
that every case keeps is kept by simplification, in whatever order the rules are tried.
-/

namespace Nabla

namespace Expr

/-- One step of simplification at the root of an expression. -/
inductive Rewrites : Expr → Expr → Prop where
  | fold {operator : Operator} {left right value : Float32} {places otherPlaces : Nat} {step : Step}
      (h : Rule.fold? operator left right = some (value, step)) :
      Rewrites (binary operator (constant left places) (constant right otherPlaces))
        (constant value (max places otherPlaces))
  | negateConstant (value : Float32) (places : Nat) :
      Rewrites (neg (constant value places)) (constant (-value) places)
  | doubleNegation (operand : Expr) : Rewrites (neg (neg operand)) operand
  | zeroAdd {left : Expr} (right : Expr) (h : left.isZero = true) : Rewrites (add left right) right
  | addZero (left : Expr) {right : Expr} (h : right.isZero = true) : Rewrites (add left right) left
  | zeroSub {left : Expr} (right : Expr) (h : left.isZero = true) :
      Rewrites (sub left right) (neg right)
  | subZero (left : Expr) {right : Expr} (h : right.isZero = true) : Rewrites (sub left right) left
  | subNeg (left operand : Expr) : Rewrites (sub left (neg operand)) (add left operand)
  | zeroMul {left : Expr} (right : Expr) (h : left.isZero = true) : Rewrites (mul left right) zero
  | mulZero (left : Expr) {right : Expr} (h : right.isZero = true) : Rewrites (mul left right) zero
  | oneMul {left : Expr} (right : Expr) (h : left.isOne = true) : Rewrites (mul left right) right
  | mulOne (left : Expr) {right : Expr} (h : right.isOne = true) : Rewrites (mul left right) left
  | divOne (left : Expr) {right : Expr} (h : right.isOne = true) : Rewrites (div left right) left
  | zeroDiv {left : Expr} (right : Expr) (h : left.isZero = true) : Rewrites (div left right) zero

end Expr

namespace Rule

open Nabla.Expr

/-- A rule that takes only the listed steps. -/
def Listed (rule : Rule) : Prop :=
  ∀ {e result : Expr} {step : Step}, rule e = some (result, step) → Rewrites e result

/-- Folding is listed. -/
theorem listed_foldConstants : Listed foldConstants := by
  intro e result step h
  unfold foldConstants at h
  split at h
  · simp only [Option.map_eq_some_iff, Prod.mk.injEq] at h
    obtain ⟨_, hfold, rfl, _⟩ := h
    exact .fold hfold
  · cases h

/-- Negating a constant is listed. -/
theorem listed_negateConstant : Listed negateConstant := by
  intro e result step h
  unfold negateConstant at h
  split at h <;> cases h
  exact .negateConstant _ _

/-- Taking off a double negation is listed. -/
theorem listed_doubleNegation : Listed doubleNegation := by
  intro e result step h
  unfold doubleNegation at h
  split at h <;> cases h
  exact .doubleNegation _

/-- Leaving out a zero that is added is listed. -/
theorem listed_addZero : Listed addZero := by
  intro e result step h
  unfold addZero at h
  split at h
  · rename_i left right
    by_cases hleft : left.isZero = true
    · rw [if_pos hleft] at h
      cases h
      exact .zeroAdd _ hleft
    · rw [if_neg hleft, Option.ite_none_right_eq_some] at h
      obtain ⟨hright, h⟩ := h
      cases h
      exact .addZero _ hright
  · cases h

/-- Negating what is subtracted from a zero is listed. -/
theorem listed_zeroMinus : Listed zeroMinus := by
  intro e result step h
  unfold zeroMinus at h
  split at h
  · obtain ⟨hleft, h⟩ := Option.ite_none_right_eq_some.1 h
    cases h
    exact .zeroSub _ hleft
  · cases h

/-- Leaving out a zero that is subtracted is listed. -/
theorem listed_subtractZero : Listed subtractZero := by
  intro e result step h
  unfold subtractZero at h
  split at h
  · obtain ⟨hright, h⟩ := Option.ite_none_right_eq_some.1 h
    cases h
    exact .subZero _ hright
  · cases h

/-- Adding what was negated is listed. -/
theorem listed_subtractNegation : Listed subtractNegation := by
  intro e result step h
  unfold subtractNegation at h
  split at h <;> cases h
  exact .subNeg _ _

/-- A product with a zero is listed. -/
theorem listed_multiplyZero : Listed multiplyZero := by
  intro e result step h
  unfold multiplyZero at h
  split at h
  · obtain ⟨hzero, h⟩ := Option.ite_none_right_eq_some.1 h
    cases h
    rcases Bool.or_eq_true_iff.1 hzero with hleft | hright
    · exact .zeroMul _ hleft
    · exact .mulZero _ hright
  · cases h

/-- Leaving out a one that is multiplied with is listed. -/
theorem listed_multiplyOne : Listed multiplyOne := by
  intro e result step h
  unfold multiplyOne at h
  split at h
  · rename_i left right
    by_cases hleft : left.isOne = true
    · rw [if_pos hleft] at h
      cases h
      exact .oneMul _ hleft
    · rw [if_neg hleft, Option.ite_none_right_eq_some] at h
      obtain ⟨hright, h⟩ := h
      cases h
      exact .mulOne _ hright
  · cases h

/-- Leaving out a one that is divided by is listed. -/
theorem listed_divideOne : Listed divideOne := by
  intro e result step h
  unfold divideOne at h
  split at h
  · obtain ⟨hright, h⟩ := Option.ite_none_right_eq_some.1 h
    cases h
    exact .divOne _ hright
  · cases h

/-- A quotient of a zero is listed. -/
theorem listed_divideZero : Listed divideZero := by
  intro e result step h
  unfold divideZero at h
  split at h
  · obtain ⟨hleft, h⟩ := Option.ite_none_right_eq_some.1 h
    cases h
    exact .zeroDiv _ hleft
  · cases h

/-- The first of several rules that applies is listed if each of them is. -/
theorem listed_firstOf {rules : List Rule} (h : ∀ rule ∈ rules, Listed rule) :
    Listed (firstOf rules) := by
  intro e result step happlied
  obtain ⟨rule, hmem, hrule⟩ := List.exists_of_findSome?_eq_some happlied
  exact h rule hmem hrule

/-- The rules take only the listed steps. -/
theorem rewrites_of_all {e result : Expr} {step : Step} (h : all e = some (result, step)) :
    Rewrites e result := by
  have hnegations : Listed negations :=
    listed_firstOf (by simp [listed_negateConstant, listed_doubleNegation])
  have hsums : Listed sums :=
    listed_firstOf (by
      simp [listed_addZero, listed_zeroMinus, listed_subtractZero, listed_subtractNegation])
  have hproducts : Listed products :=
    listed_firstOf (by simp [listed_multiplyZero, listed_multiplyOne])
  have hquotients : Listed quotients :=
    listed_firstOf (by simp [listed_divideOne, listed_divideZero])
  have hall : Listed all :=
    listed_firstOf (by simp [listed_foldConstants, hnegations, hsums, hproducts, hquotients])
  exact hall h

end Rule

end Nabla
