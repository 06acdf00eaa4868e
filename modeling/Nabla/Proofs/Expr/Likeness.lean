import Nabla.Expr.Markup
import Nabla.Formula.LexemeReader

/-!
# What expressions look like

The rich text of an expression does not tell where the negations in front of a power belong:
`-(x^2)` and `(-x)^2` have one text. And it tells constants apart by their texts only. So two
expressions look the same if they have one shape and the same texts of constants, once every
negation in front of a power is moved in front of its base (`LooksSame`). Expressions that look the
same have the same rich text (`LooksSame.chars_eq`).
-/

namespace Nabla.Expr

open Formula (negate)

/-! ### What expressions look like -/

/-- An expression with a number of negations in front of it. Those in front of a power stand in
front of its base. -/
def sinkUnder : (count : Nat) → Expr → Expr
  | count, constant value places => negate count (constant value places)
  | count, symbol name => negate count (symbol name)
  | count, neg operand => operand.sinkUnder (count + 1)
  | count, binary .pow base exponent => binary .pow (base.sinkUnder count) (exponent.sinkUnder 0)
  | count, binary operator left right =>
      negate count (binary operator (left.sinkUnder 0) (right.sinkUnder 0))
  | count, call function argument => negate count (call function (argument.sinkUnder 0))

/-- An expression with every negation in front of a power moved in front of the base, also where the
base is a power itself. -/
def sinkNegations (e : Expr) : Expr := e.sinkUnder 0

/-- Two expressions of the same shape whose constants have the same texts. -/
inductive LooksLike : Expr → Expr → Prop
  | constant {value other : Float32} {places otherPlaces : Nat}
      (h : Decimal.fixedChars value places = Decimal.fixedChars other otherPlaces) :
      LooksLike (constant value places) (constant other otherPlaces)
  | symbol (name : Symbol) : LooksLike (symbol name) (symbol name)
  | neg {operand other : Expr} (h : LooksLike operand other) : LooksLike (neg operand) (neg other)
  | binary (operator : Operator) {left right otherLeft otherRight : Expr}
      (hleft : LooksLike left otherLeft) (hright : LooksLike right otherRight) :
      LooksLike (binary operator left right) (binary operator otherLeft otherRight)
  | call (function : Function) {argument other : Expr} (h : LooksLike argument other) :
      LooksLike (call function argument) (call function other)

/-- Two expressions that look alike once their negations are moved. -/
def LooksSame (e other : Expr) : Prop := e.sinkNegations.LooksLike other.sinkNegations

/-- Expressions that look alike still do with negations in front. -/
theorem LooksLike.negate {e other : Expr} (h : e.LooksLike other) (count : Nat) :
    (negate count e).LooksLike (negate count other) := by
  induction count with
  | zero => exact h
  | succ count ih => exact .neg ih

/-! ### Texts of operands -/

/-- The rich text of an expression that stands next to an operator. -/
def operandChars (e : Expr) : List Char := parenthesizeIf e.isArithmetic (e.chars .html)

/-- The rich text of an exponent. -/
def raised (exponent : Expr) : List Char :=
  "<sup>".toList ++ (exponent.operandChars ++ "</sup>".toList)

/-- Without an operation there are no parentheses around an operand. -/
theorem operandChars_eq_chars {e : Expr} (h : e.isArithmetic = false) :
    e.operandChars = e.chars .html := by
  rw [operandChars, h]
  rfl

/-- The text of a power is its base and, raised, its exponent. -/
theorem chars_pow (base exponent : Expr) :
    (pow base exponent).chars .html = base.operandChars ++ exponent.raised := by
  have hwraps (operand : Expr) : operand.wrapsInPower .html = operand.isArithmetic :=
    Bool.or_false _
  show parenthesizeIf (base.wrapsInPower .html) _ ++ "<sup>".toList ++
    parenthesizeIf (exponent.wrapsInPower .html) _ ++ "</sup>".toList = _
  rw [hwraps, hwraps, List.append_assoc, List.append_assoc]
  rfl

/-- The text of another operation is its operands with its character between them. -/
theorem chars_arithmetic {operator : Operator} (h : operator ≠ .pow) (left right : Expr) :
    (binary operator left right).chars .html =
      left.operandChars ++ (' ' :: operator.character :: ' ' :: right.operandChars) := by
  have hchars : (binary operator left right).chars .html =
      left.operandChars ++ [' ', operator.character, ' '] ++ right.operandChars := by
    cases operator <;> first | rfl | exact absurd rfl h
  rw [hchars, List.append_assoc]
  rfl

/-- An operation is in parentheses as an operand. -/
theorem operandChars_arithmetic {operator : Operator} (h : operator ≠ .pow) (left right : Expr) :
    (binary operator left right).operandChars =
      parenthesize ((binary operator left right).chars .html) := by
  have harithmetic : (binary operator left right).isArithmetic = true := bne_iff_ne.2 h
  rw [operandChars, harithmetic]
  rfl

/-- Texts in parentheses are told apart by what is in them. -/
theorem parenthesize_injective : Function.Injective parenthesize := by
  intro text other h
  exact List.append_cancel_right (List.cons.inj h).2

/-- Negations in front of an operand are signs in front of its text. -/
theorem operandChars_negate (count : Nat) (e : Expr) :
    (negate count e).operandChars = List.replicate count '-' ++ e.operandChars := by
  induction count with
  | zero => rfl
  | succ count ih => exact congrArg ('-' :: ·) ih

/-- Expressions of one kind with the same text as an operand have the same text. -/
theorem chars_eq_of_operandChars {e other : Expr} (hkind : e.isArithmetic = other.isArithmetic)
    (h : e.operandChars = other.operandChars) : e.chars .html = other.chars .html := by
  unfold operandChars at h
  rw [hkind] at h
  cases harithmetic : other.isArithmetic with
  | false =>
    rw [harithmetic] at h
    exact h
  | true =>
    rw [harithmetic] at h
    exact parenthesize_injective h

/-! ### Moved negations -/

/-- With a negation in front there is no operation left to be put in parentheses. -/
theorem isArithmetic_sinkUnder_succ (count : Nat) (e : Expr) :
    (e.sinkUnder (count + 1)).isArithmetic = false := by
  induction e generalizing count with
  | neg operand ih => exact ih (count + 1)
  | binary operator left right => cases operator <;> rfl
  | _ => rfl

/-- Negations that sink leave an operation one. -/
theorem isArithmetic_sinkNegations (e : Expr) : e.sinkNegations.isArithmetic = e.isArithmetic := by
  cases e with
  | neg operand => exact operand.isArithmetic_sinkUnder_succ 0
  | binary operator left right => cases operator <;> rfl
  | _ => rfl

/-- The negations of the operands of an operation sink in each of them. -/
theorem sinkNegations_binary (operator : Operator) (left right : Expr) :
    (binary operator left right).sinkNegations =
      binary operator left.sinkNegations right.sinkNegations := by
  cases operator <;> rfl

/-- Negations that are moved stand in front of the text as before. -/
theorem operandChars_sinkUnder (count : Nat) (e : Expr) :
    (e.sinkUnder count).operandChars = List.replicate count '-' ++ e.operandChars := by
  -- all negations so far are counted, and a power hands them to its base
  induction e generalizing count with
  | constant value places => exact operandChars_negate count _
  | symbol name => exact operandChars_negate count _
  | neg operand ih =>
    show (operand.sinkUnder (count + 1)).operandChars = _ ++ '-' :: operand.operandChars
    rw [ih, List.replicate_succ', List.append_assoc]
    rfl
  | binary operator left right ihleft ihright =>
    have hleft := ihleft 0
    have hright := ihright 0
    by_cases hpow : operator = .pow
    · subst hpow
      show (pow (left.sinkUnder count) (right.sinkUnder 0)).chars .html =
        _ ++ (pow left right).chars .html
      rw [chars_pow, chars_pow, ihleft, raised, hright, List.append_assoc]
      rfl
    · have hsink : (binary operator left right).sinkUnder count =
          negate count (binary operator (left.sinkUnder 0) (right.sinkUnder 0)) := by
        cases operator <;> first | rfl | exact absurd rfl hpow
      rw [hsink, operandChars_negate, operandChars_arithmetic hpow, operandChars_arithmetic hpow,
        chars_arithmetic hpow, chars_arithmetic hpow, hleft, hright]
      rfl
  | call function argument ih =>
    have hargument : (argument.sinkUnder 0).chars .html = argument.chars .html :=
      chars_eq_of_operandChars argument.isArithmetic_sinkNegations (ih 0)
    show (negate count (call function (argument.sinkUnder 0))).operandChars = _
    rw [operandChars_negate]
    show _ ++ (function.name.toList ++ parenthesize ((argument.sinkUnder 0).chars .html)) = _
    rw [hargument]
    rfl

/-- Negations that sink cannot be seen in the text. -/
theorem chars_sinkNegations (e : Expr) : e.sinkNegations.chars .html = e.chars .html :=
  chars_eq_of_operandChars e.isArithmetic_sinkNegations (operandChars_sinkUnder 0 e)

/-- Expressions that look alike are of one kind and have the same text as an operand. -/
theorem LooksLike.operandChars_eq {e other : Expr} (h : e.LooksLike other) :
    e.isArithmetic = other.isArithmetic ∧ e.operandChars = other.operandChars := by
  induction h with
  | constant h => exact ⟨rfl, h⟩
  | symbol name => exact ⟨rfl, rfl⟩
  | neg h ih => exact ⟨rfl, congrArg ('-' :: ·) ih.2⟩
  | @binary operator left right otherLeft otherRight hleft hright ihleft ihright =>
    refine ⟨rfl, ?_⟩
    by_cases hpow : operator = .pow
    · subst hpow
      show (pow left right).chars .html = (pow otherLeft otherRight).chars .html
      rw [chars_pow, chars_pow, ihleft.2, raised, raised, ihright.2]
    · rw [operandChars_arithmetic hpow, operandChars_arithmetic hpow, chars_arithmetic hpow,
        chars_arithmetic hpow, ihleft.2, ihright.2]
  | @call function argument other h ih =>
    refine ⟨rfl, ?_⟩
    show function.name.toList ++ parenthesize (argument.chars .html) =
      function.name.toList ++ parenthesize (other.chars .html)
    rw [chars_eq_of_operandChars ih.1 ih.2]

/-- Expressions that look the same have the same text. -/
theorem LooksSame.chars_eq {e other : Expr} (h : e.LooksSame other) :
    e.chars .html = other.chars .html := by
  obtain ⟨hkind, hmoved⟩ := LooksLike.operandChars_eq h
  rw [← chars_sinkNegations e, ← chars_sinkNegations other]
  exact chars_eq_of_operandChars hkind hmoved

end Nabla.Expr
