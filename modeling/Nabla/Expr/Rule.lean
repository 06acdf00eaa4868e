import Nabla.Expr.Basic

/-!
# Simplification rules

The rules that simplification is made of. A rule looks at the root of an expression and the
constants below it; where it applies it gives the simpler expression and the `Step` it took.
Constants count as zero or one when they are cut off to it, so `0.4 + a` becomes `a`.

`Rule.nodeCount_lt` says that every rule removes at least one node, so applying rules to a node
until none applies comes to an end.
-/

namespace Nabla

/-- What a simplification step did. -/
inductive Step where
  | foldConstants
  | divideByZeroConstant
  | addZero
  | subtractZero
  | zeroMinus
  | subtractNegation
  | doubleNegation
  | negateConstant
  | multiplyZero
  | multiplyOne
  | divideOne
  | divideZero
deriving DecidableEq, Repr

namespace Step

/-- The name of a step. -/
def name : Step → String
  | foldConstants => "FoldConstants"
  | divideByZeroConstant => "DivideByZeroConstant"
  | addZero => "AddZero"
  | subtractZero => "SubtractZero"
  | zeroMinus => "ZeroMinus"
  | subtractNegation => "SubtractNegation"
  | doubleNegation => "DoubleNegation"
  | negateConstant => "NegateConstant"
  | multiplyZero => "MultiplyZero"
  | multiplyOne => "MultiplyOne"
  | divideOne => "DivideOne"
  | divideZero => "DivideZero"

/-- The equation that a step uses from left to right. -/
def equation : Step → String
  | foldConstants => "c1 op c2 = c"
  | divideByZeroConstant => "c/0 = 1000000"
  | addZero => "0+a = a"
  | subtractZero => "a-0 = a"
  | zeroMinus => "0-a = -a"
  | subtractNegation => "a-(-b) = a+b"
  | doubleNegation => "-(-a) = a"
  | negateConstant => "-(c) = -c"
  | multiplyZero => "0*a = 0"
  | multiplyOne => "1*a = a"
  | divideOne => "a/1 = a"
  | divideZero => "0/a = 0"

/-- A step as it is listed. -/
def text (step : Step) : String := step.name ++ ": " ++ step.equation

end Step

/-- A simplification rule for the root of an expression. -/
abbrev Rule := Expr → Option (Expr × Step)

namespace Rule

open Nabla.Expr

/-- The value that a quotient of constants with a denominator cut off to zero is folded to. -/
def foldedQuotient : Float32 := 1000000

/-- The constant that a sum, difference, product or quotient of two numbers is folded to. A power
is not folded. -/
def fold? (operator : Operator) (left right : Float32) : Option (Float32 × Step) :=
  match operator with
  | .add => some (left + right, .foldConstants)
  | .sub => some (left - right, .foldConstants)
  | .mul => some (left * right, .foldConstants)
  | .div =>
      if Binary32.truncate? right = some 0 then some (foldedQuotient, .divideByZeroConstant)
      else some (left / right, .foldConstants)
  | .pow => none

/-- Two constants become one, shown with as many places as the more precise of them. -/
def foldConstants : Rule
  | binary operator (constant left places) (constant right otherPlaces) =>
      (fold? operator left right).map fun (value, step) ↦
        (constant value (max places otherPlaces), step)
  | _ => none

/-- A negated constant becomes a constant. -/
def negateConstant : Rule
  | neg (constant value places) => some (constant (-value) places, .negateConstant)
  | _ => none

/-- Two negations cancel. -/
def doubleNegation : Rule
  | neg (neg operand) => some (operand, .doubleNegation)
  | _ => none

/-- Zero is dropped from a sum. -/
def addZero : Rule
  | add left right =>
      if left.isZero then some (right, .addZero)
      else if right.isZero then some (left, .addZero)
      else none
  | _ => none

/-- Subtracting from zero negates. -/
def zeroMinus : Rule
  | sub left right => if left.isZero then some (neg right, .zeroMinus) else none
  | _ => none

/-- Subtracting zero changes nothing. -/
def subtractZero : Rule
  | sub left right => if right.isZero then some (left, .subtractZero) else none
  | _ => none

/-- Subtracting a negation adds. -/
def subtractNegation : Rule
  | sub left (neg right) => some (add left right, .subtractNegation)
  | _ => none

/-- A product with zero is zero. -/
def multiplyZero : Rule
  | mul left right => if left.isZero || right.isZero then some (zero, .multiplyZero) else none
  | _ => none

/-- One is dropped from a product. -/
def multiplyOne : Rule
  | mul left right =>
      if left.isOne then some (right, .multiplyOne)
      else if right.isOne then some (left, .multiplyOne)
      else none
  | _ => none

/-- Dividing by one changes nothing. -/
def divideOne : Rule
  | div left right => if right.isOne then some (left, .divideOne) else none
  | _ => none

/-- Zero divided is zero. -/
def divideZero : Rule
  | div left _ => if left.isZero then some (zero, .divideZero) else none
  | _ => none

/-- The rule that takes the first of the given rules that applies. -/
def firstOf (rules : List Rule) : Rule := fun e ↦ rules.findSome? (· e)

/-- The rules for negations. -/
def negations : Rule := firstOf [negateConstant, doubleNegation]

/-- The rules for sums and differences. -/
def sums : Rule := firstOf [addZero, zeroMinus, subtractZero, subtractNegation]

/-- The rules for products. -/
def products : Rule := firstOf [multiplyZero, multiplyOne]

/-- The rules for quotients. -/
def quotients : Rule := firstOf [divideOne, divideZero]

/-- All rules. Constants are folded first. -/
def all : Rule := firstOf [foldConstants, negations, sums, products, quotients]

/-! ### Every rule removes a node -/

/-- A rule whose result has fewer nodes than the expression it applies to. -/
def Shrinks (rule : Rule) : Prop :=
  ∀ {e result : Expr} {step : Step}, rule e = some (result, step) →
    result.nodeCount < e.nodeCount

/-- Two constants and an operator become one constant. -/
theorem shrinks_foldConstants : Shrinks foldConstants := by
  intro e result step h
  unfold foldConstants at h
  split at h
  · simp only [Option.map_eq_some_iff, Prod.mk.injEq] at h
    obtain ⟨_, _, rfl, _⟩ := h
    simp only [nodeCount]
    omega
  · cases h

/-- A negated constant becomes a constant. -/
theorem shrinks_negateConstant : Shrinks negateConstant := by
  intro e result step h
  unfold negateConstant at h
  split at h <;> cases h
  simp only [nodeCount]
  omega

/-- Two negations go. -/
theorem shrinks_doubleNegation : Shrinks doubleNegation := by
  intro e result step h
  unfold doubleNegation at h
  split at h <;> cases h
  simp only [nodeCount]
  omega

/-- A sum becomes one of its operands. -/
theorem shrinks_addZero : Shrinks addZero := by
  intro e result step h
  unfold addZero at h
  split at h <;> (repeat' split at h) <;> cases h
  all_goals
    simp only [nodeCount]
    omega

/-- A difference from zero becomes a negation. -/
theorem shrinks_zeroMinus : Shrinks zeroMinus := by
  intro e result step h
  unfold zeroMinus at h
  split at h <;> (repeat' split at h) <;> cases h
  rename_i left right _
  have := left.nodeCount_pos
  simp only [nodeCount]
  omega

/-- A difference becomes its left operand. -/
theorem shrinks_subtractZero : Shrinks subtractZero := by
  intro e result step h
  unfold subtractZero at h
  split at h <;> (repeat' split at h) <;> cases h
  simp only [nodeCount]
  omega

/-- A difference with a negation becomes a sum without it. -/
theorem shrinks_subtractNegation : Shrinks subtractNegation := by
  intro e result step h
  unfold subtractNegation at h
  split at h <;> cases h
  simp only [nodeCount]
  omega

/-- A product becomes a constant. -/
theorem shrinks_multiplyZero : Shrinks multiplyZero := by
  intro e result step h
  unfold multiplyZero at h
  split at h <;> (repeat' split at h) <;> cases h
  rename_i left right _
  have := left.nodeCount_pos
  simp only [zero, nodeCount]
  omega

/-- A product becomes one of its operands. -/
theorem shrinks_multiplyOne : Shrinks multiplyOne := by
  intro e result step h
  unfold multiplyOne at h
  split at h <;> (repeat' split at h) <;> cases h
  all_goals
    simp only [nodeCount]
    omega

/-- A quotient becomes its numerator. -/
theorem shrinks_divideOne : Shrinks divideOne := by
  intro e result step h
  unfold divideOne at h
  split at h <;> (repeat' split at h) <;> cases h
  simp only [nodeCount]
  omega

/-- A quotient becomes a constant. -/
theorem shrinks_divideZero : Shrinks divideZero := by
  intro e result step h
  unfold divideZero at h
  split at h <;> (repeat' split at h) <;> cases h
  rename_i left right _
  have := left.nodeCount_pos
  simp only [zero, nodeCount]
  omega

/-- The first of several rules that applies removes a node if each of them does. -/
theorem shrinks_firstOf {rules : List Rule} (h : ∀ rule ∈ rules, Shrinks rule) :
    Shrinks (firstOf rules) := by
  intro e result step happlied
  obtain ⟨rule, hmem, hrule⟩ := List.exists_of_findSome?_eq_some happlied
  exact h rule hmem hrule

/-- The rules about negations remove a node. -/
theorem shrinks_negations : Shrinks negations :=
  shrinks_firstOf (by simp [shrinks_negateConstant, shrinks_doubleNegation])

/-- The rules about sums and differences remove a node. -/
theorem shrinks_sums : Shrinks sums :=
  shrinks_firstOf (by
    simp [shrinks_addZero, shrinks_zeroMinus, shrinks_subtractZero, shrinks_subtractNegation])

/-- The rules about products remove a node. -/
theorem shrinks_products : Shrinks products :=
  shrinks_firstOf (by simp [shrinks_multiplyZero, shrinks_multiplyOne])

/-- The rules about quotients remove a node. -/
theorem shrinks_quotients : Shrinks quotients :=
  shrinks_firstOf (by simp [shrinks_divideOne, shrinks_divideZero])

/-- Whichever rule is used, there are fewer nodes after it. -/
theorem shrinks_all : Shrinks all :=
  shrinks_firstOf (by
    simp [shrinks_foldConstants, shrinks_negations, shrinks_sums, shrinks_products,
      shrinks_quotients])

/-- Where a rule applies, it removes at least one node. -/
theorem nodeCount_lt {e result : Expr} {step : Step} (h : all e = some (result, step)) :
    result.nodeCount < e.nodeCount :=
  shrinks_all h

end Rule

end Nabla
