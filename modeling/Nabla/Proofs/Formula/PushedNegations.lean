import Nabla.Proofs.Expr.NormalForm
import Nabla.Proofs.Formula.PlainText

/-!
# Negations in front of powers

The plain text of an expression does not tell the negation of a power from the power of a negation.
If every constant is the number that its text is read as, this is all that is lost: the expression
read back is `Expr.pushNegations`, in which the negations that were stacked in front of a power
stand in front of its base. So exactly the expressions in which no negation stands directly in front
of a power are read back as they were written.
-/

namespace Nabla.Expr

open Decimal (Literal Numeral)
open Formula (negate)

/-- An expression with a number of negations stacked in front of it. Everywhere in the result, the
negations that were stacked in front of a power stand in front of its base. -/
def pushUnder : (count : Nat) → Expr → Expr
  | count, constant value places => negate count (constant value places)
  | count, symbol name => negate count (symbol name)
  | count, neg operand => operand.pushUnder (count + 1)
  | count, binary .pow base exponent =>
      binary .pow (negate count (base.pushUnder 0)) (exponent.pushUnder 0)
  | count, binary operator left right =>
      negate count (binary operator (left.pushUnder 0) (right.pushUnder 0))
  | count, call function argument => negate count (call function (argument.pushUnder 0))

/-- An expression in which the negations in front of every power are moved in front of its base. -/
def pushNegations (e : Expr) : Expr := e.pushUnder 0

/-- The text of every constant is read as the number that the constant stands for. -/
def ConstantsReadBack (e : Expr) : Prop :=
  ∀ value places, constant value places ∈ e.subexpressions →
    Decimal.readNumber? (Decimal.fixedChars value places) = some value

/-- The constants of an operand are read back if those of the expression are. -/
theorem ConstantsReadBack.operand {e operand : Expr} (h : e.ConstantsReadBack)
    (hmem : operand ∈ e.operands) : operand.ConstantsReadBack :=
  fun value places hconstant ↦ h value places (mem_subexpressions_of_operand hmem hconstant)

/-- A negation more in front of an expression that is no power, and neither is any negation. -/
theorem negate_succ {e : Expr} (h : e.isPower = false) (count : Nat) :
    negate (count + 1) e = (negate count e).negateText := by
  cases count with
  | zero => exact (negateText_of_isPower_eq_false h).symm
  | succ count => rfl

/-- A negation more in front of an expression is the first one in front of its text. -/
theorem pushUnder_succ (e : Expr) (count : Nat) :
    e.pushUnder (count + 1) = (e.pushUnder count).negateText := by
  induction e generalizing count with
  | constant value places => exact negate_succ rfl count
  | symbol name => exact negate_succ rfl count
  | neg operand ih => exact ih (count + 1)
  | binary operator left right =>
    cases operator with
    | pow => rfl
    | _ => exact negate_succ rfl count
  | call function argument => exact negate_succ rfl count

/-- A constant whose text is read as its number is read back. -/
theorem readsBack_constant {mode : Mode} {value : Float32} {places : Nat}
    (hreadable : (constant value places).Readable mode)
    (hfinite : (constant value places).FiniteConstants)
    (hread : (constant value places).ConstantsReadBack) : (constant value places).ReadsBack := by
  obtain ⟨negative, significand, exponent, hparts⟩ := hfinite
  obtain ⟨literal, hliteral⟩ := exists_literal hreadable ⟨_, _, _, hparts⟩
  have hnumeral := literal.ofChars?_text
  have hvalue := literal.readNumber?_text
  rw [hliteral] at hnumeral hvalue
  have hsame : value = literal.numeral.value :=
    Option.some.inj ((hread value places List.mem_cons_self).symm.trans hvalue)
  have hplaces : literal.numeral.places = places := Decimal.places_of_fixedChars hparts hnumeral
  show Numeral.ofChars? (Decimal.fixedChars value places) = some ⟨value, places⟩
  rw [hnumeral, hsame, ← hplaces]

section

variable {mode : Mode} {e : Expr}

/-- If the constants are read back, only the negations in front of powers move. -/
theorem reread_eq_pushNegations (hreadable : e.Readable mode) (hfinite : e.FiniteConstants)
    (hread : e.ConstantsReadBack) : e.reread = e.pushNegations := by
  induction e with
  | constant value places =>
    exact (reread_eq_self_iff hreadable hfinite).2 (readsBack_constant hreadable hfinite hread)
  | symbol name => rfl
  | neg operand ih =>
    have hoperand := ih hreadable hfinite (hread.operand List.mem_cons_self)
    show operand.reread.negateText = operand.pushUnder (0 + 1)
    rw [hoperand, pushUnder_succ]
    rfl
  | binary operator left right ihleft ihright =>
    have hleft := ihleft hreadable.1 hfinite.1 (hread.operand List.mem_cons_self)
    have hright := ihright hreadable.2 hfinite.2
      (hread.operand (List.mem_cons_of_mem _ List.mem_cons_self))
    show binary operator left.reread right.reread = _
    rw [hleft, hright]
    cases operator <;> rfl
  | call function argument ih =>
    have hargument := ih hreadable.2 hfinite (hread.operand List.mem_cons_self)
    show call function argument.reread = call function argument.pushNegations
    rw [hargument]

/-- What is no power is not made by one. -/
theorem isPower_eq_false_iff : e.isPower = false ↔ ∀ base exponent, e ≠ pow base exponent := by
  constructor
  · rintro h base exponent rfl
    cases h
  · intro h
    unfold isPower
    split
    · exact absurd rfl (h _ _)
    · rfl

/-- If the constants are read back, a negation in front of a power is all that can be lost. -/
theorem readsBack_iff (hreadable : e.Readable mode) (hfinite : e.FiniteConstants)
    (hread : e.ConstantsReadBack) :
    e.ReadsBack ↔ ∀ base exponent, neg (pow base exponent) ∉ e.subexpressions := by
  induction e with
  | constant value places =>
    exact iff_of_true (readsBack_constant hreadable hfinite hread) (by simp [subexpressions])
  | symbol name => exact iff_of_true trivial (by simp [subexpressions])
  | neg operand ih =>
    have hoperand := ih hreadable hfinite (hread.operand List.mem_cons_self)
    simp only [ReadsBack, hoperand, isPower_eq_false_iff, subexpressions, List.mem_cons, not_or,
      neg.injEq, forall_and, ne_comm]
  | binary operator left right ihleft ihright =>
    have hleft := ihleft hreadable.1 hfinite.1 (hread.operand List.mem_cons_self)
    have hright := ihright hreadable.2 hfinite.2
      (hread.operand (List.mem_cons_of_mem _ List.mem_cons_self))
    simp only [ReadsBack, hleft, hright, subexpressions, List.mem_cons, List.mem_append, not_or,
      forall_and, reduceCtorEq, not_false_eq_true, true_and]
  | call function argument ih =>
    have hargument := ih hreadable.2 hfinite (hread.operand List.mem_cons_self)
    simp only [ReadsBack, hargument, subexpressions, List.mem_cons, not_or, reduceCtorEq,
      not_false_eq_true, true_and]

end

end Nabla.Expr

namespace Nabla.Formula

variable {mode : Mode} {e : Expr}

/-- The plain text of an expression whose constants are read back is accepted. It is read as the
expression in which the negations in front of every power are moved in front of its base, and so as
the expression itself exactly if no negation stands directly in front of a power. -/
theorem parse_plain_eq_pushNegations (hreadable : e.Readable mode) (hfinite : e.FiniteConstants)
    (hread : e.ConstantsReadBack) :
    Reader.token.parse mode (e.chars .plain) = .ok e.pushNegations ∧
      (Reader.token.parse mode (e.chars .plain) = .ok e ↔
        ∀ base exponent, .neg (.pow base exponent) ∉ e.subexpressions) := by
  obtain ⟨sentence, hspelled, htree⟩ := (written hreadable hfinite).sentence
  have hparse : Reader.token.parse mode (e.chars .plain) = .ok e.reread := by
    rw [← htree]
    exact parse_of_spelled sentence hspelled
  refine ⟨?_, ?_⟩
  · rw [hparse, Expr.reread_eq_pushNegations hreadable hfinite hread]
  · rw [hparse, ← Expr.readsBack_iff hreadable hfinite hread,
      ← Expr.reread_eq_self_iff hreadable hfinite]
    exact ⟨Except.ok.inj, congrArg _⟩

/-- Both negations in front of the power in `--(x + 2.50)^(-y)` are read in front of its base. -/
theorem parse_plain_stacked_negations :
    let sum : Expr := .add (.symbol .x) (.constant 2.5 2)
    let e : Expr := .neg (.neg (.pow sum (.neg (.symbol .y))))
    e.Readable .multiVariable ∧ e.FiniteConstants ∧ e.ConstantsReadBack ∧
      Reader.token.parse .multiVariable "--(x + 2.50)^(-y)".toList =
        .ok (.pow (.neg (.neg sum)) (.neg (.symbol .y))) := by
  intro sum e
  have hparts : Binary32.parts 2.5 = .finite false 10485760 (-22) := by decide +kernel
  have hreadable : e.Readable .multiVariable :=
    ⟨⟨rfl, Binary32.clearSign_ofScientific 25 true 1⟩, rfl⟩
  have hfinite : e.FiniteConstants := ⟨⟨trivial, _, _, _, hparts⟩, trivial⟩
  have hconstant : Decimal.readNumber? (Decimal.fixedChars 2.5 2) = some 2.5 := by decide +kernel
  have hread : e.ConstantsReadBack := by
    intro value places hmem
    simp only [e, sum, Expr.subexpressions, List.mem_cons, reduceCtorEq,
      Expr.constant.injEq, List.not_mem_nil, List.cons_append, List.nil_append, false_or, or_false]
      at hmem
    obtain ⟨rfl, rfl⟩ := hmem
    exact hconstant
  have hchars : e.chars .plain = "--(x + 2.50)^(-y)".toList := by decide +kernel
  have hparse := (parse_plain_eq_pushNegations hreadable hfinite hread).1
  rw [hchars] at hparse
  exact ⟨hreadable, hfinite, hread, hparse⟩

end Nabla.Formula
