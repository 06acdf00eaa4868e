import Nabla.Expr.Derivative
import Nabla.Proofs.Binary32.Logarithm
import Nabla.Proofs.Binary32.NotANumber
import Nabla.Proofs.Expr.SimplifiedValue

/-!
# Derivatives by a letter that is no symbol

By a letter that names no symbol, everything is a constant. The derivative of an expression is
nevertheless not zero everywhere. `KeepsConstancy` says of each node when its derivative is zero if
those of its operands are: a quotient needs a square of the denominator above the guard, and a power
needs a base above the guard or has to vanish with a positive one. A function is differentiated
without regard to its argument: the cosine of the argument of a sine has to be zero, the sine of
that of a cosine, and one over that of a logarithm. So the derivative of an expression is zero where
all its nodes keep constancy (`derivativeByLetter_beq_zero`).
-/

namespace Nabla.Expr

open Binary32 Float.Model Float.Model.UnpackedFloat

/-! ### Quotients -/

/-- The value of a guarded quotient has a positive significand and the exponent 6. -/
theorem unpack_guardedQuotient :
    guardedQuotient.toModel.unpack = .finite .positive 15625000 6 (by decide) := rfl

/-- The value of a guarded quotient is no zero. -/
theorem not_isZero_guardedQuotient : ¬ IsZero guardedQuotient := by
  rintro ⟨sign, hzero⟩
  rw [unpack_guardedQuotient] at hzero
  cases hzero

/-- The quotient of a zero is a zero unless it is guarded. -/
theorem isZero_quotient_iff {numerator denominator : Float32} (h : IsZero numerator) :
    IsZero (quotient numerator denominator) ↔ denominatorGuard < denominator := by
  constructor
  · intro hzero
    by_contra hlt
    unfold quotient at hzero
    split at hzero
    · exact not_isZero_guardedQuotient hzero
    · rename_i hle
      -- what is neither above nor below the guard is not a number
      cases hnan : denominator.isNaN with
      | true => exact not_isZero_of_isNaN (isNaN_div numerator hnan) hzero
      | false => exact (le_or_lt hnan rfl).elim hle hlt
  · intro hlt
    rw [quotient_of_lt hlt]
    exact h.div (isNaN_eq_false_of_lt hlt) (not_isZero_of_lt hlt)

/-! ### Powers -/

/-- A finite number that is above zero or the guard has a positive sign. -/
theorem exists_positive {x : Float32} (hfinite : x.isFinite = true)
    (h : 0 < x ∨ denominatorGuard < x) :
    ∃ mantissa exponent hpos, x.toModel.unpack = .finite .positive mantissa exponent hpos := by
  have hlt : UnpackedFloat.compare (.zero .positive) x.toModel.unpack = some .lt ∨
      UnpackedFloat.compare denominatorGuard.toModel.unpack x.toModel.unpack = some .lt :=
    h.imp (fun h ↦ beq_iff_eq.1 (of_decide_eq_true h)) fun h ↦ beq_iff_eq.1 (of_decide_eq_true h)
  rw [unpack_denominatorGuard] at hlt
  rcases isZero_or_exists_finite hfinite with ⟨sign, hx⟩ | ⟨sign, mantissa, exponent, hpos, hx⟩
  · rw [hx] at hlt
    rcases hlt with hlt | hlt <;> cases hlt
  · cases sign with
    | positive => exact ⟨mantissa, exponent, hpos, hx⟩
    | negative =>
      rw [hx] at hlt
      rcases hlt with hlt | hlt <;> cases hlt

/-- A positive sign and a significand make a number above zero. -/
theorem zero_lt_of_unpack {x : Float32} {mantissa : Nat} {exponent : Int} {hpos : 0 < mantissa}
    (h : x.toModel.unpack = .finite .positive mantissa exponent hpos) : 0 < x := by
  refine decide_eq_true ?_
  show (UnpackedFloat.compare (.zero .positive) x.toModel.unpack == some .lt) = true
  rw [h]
  rfl

/-- A zero times the logarithm of a number that is not positive is not a number. -/
theorem isNaN_zero_mul_ln {z x : Float32} (hz : IsZero z) (hfinite : x.isFinite = true)
    (h : ¬ 0 < x) : (z * ln x).isNaN = true := by
  rcases isZero_or_exists_finite hfinite with hx | ⟨sign, mantissa, exponent, hpos, hx⟩
  · obtain ⟨negative, hparts⟩ := hx.exists_parts
    have hln : ln x = infinity true := by simp only [ln, hparts]
    rw [hln]
    exact @isNaN_zero_mul _ _ .negative hz rfl
  · cases sign with
    | positive => exact absurd (zero_lt_of_unpack hx) h
    | negative =>
      have hparts : parts x = .finite true mantissa exponent := by
        rw [parts, hx]
        rfl
      obtain ⟨n, rfl⟩ := Nat.exists_eq_succ_of_ne_zero hpos.ne'
      have hln : ln x = nan := by simp only [ln, hparts]
      rw [hln]
      exact isNaN_mul z rfl

/-- No finite number is so small that its product with that value is zero. -/
theorem isZero_mul_guardedQuotient_iff {x : Float32} (hfinite : x.isFinite = true) :
    IsZero (x * guardedQuotient) ↔ IsZero x := by
  constructor
  · intro hzero
    rcases isZero_or_exists_finite hfinite with hx | ⟨sign, mantissa, exponent, hpos, hx⟩
    · exact hx
    · exact absurd hzero (not_isZero_mul hx unpack_guardedQuotient (by decide) (by decide))
  · exact fun hx ↦ isZero_zero_mul hx rfl

/-- When the value of the derivative of a power is a zero, if those of its operands are. -/
theorem isZero_power_iff {power base exponent f' g' : Float32} (hpower : power.isFinite = true)
    (hbase : base.isFinite = true) (hexponent : exponent.isFinite = true) (hf : IsZero f')
    (hg : IsZero g') :
    IsZero (power * (g' * ln base + quotient (exponent * f') base)) ↔
      denominatorGuard < base ∨ (0 < base ∧ IsZero power) := by
  have hnumerator : IsZero (exponent * f') := isZero_mul_zero hf hexponent
  by_cases hpositive : 0 < base
  · obtain ⟨mantissa, scale, hpos, hunpack⟩ := exists_positive hbase (.inl hpositive)
    have hlogarithm : IsZero (g' * ln base) := isZero_zero_mul hg (isFinite_ln hunpack)
    by_cases hguard : denominatorGuard < base
    · have hquotient := (isZero_quotient_iff hnumerator).2 hguard
      exact iff_of_true (isZero_mul_zero (hlogarithm.add hquotient) hpower) (.inl hguard)
    · have hle : base ≤ denominatorGuard :=
        (le_or_lt (isNaN_eq_false hbase) rfl).resolve_right hguard
      have hsum : g' * ln base + quotient (exponent * f') base = guardedQuotient := by
        rw [quotient, if_pos hle]
        rcases (Binary32.zero_add hlogarithm guardedQuotient).eq_or_isZero with hsame | ⟨-, hzero⟩
        · exact hsame
        · exact absurd hzero not_isZero_guardedQuotient
      rw [hsum, isZero_mul_guardedQuotient_iff hpower]
      simp only [hguard, hpositive, true_and, false_or]
  · have hnan : (power * (g' * ln base + quotient (exponent * f') base)).isNaN = true :=
      isNaN_mul _ (isNaN_add (isNaN_zero_mul_ln hg hbase hpositive) _)
    refine iff_of_false (not_isZero_of_isNaN hnan) ?_
    rintro (hguard | ⟨h, -⟩)
    · obtain ⟨_, _, _, hunpack⟩ := exists_positive hbase (.inr hguard)
      exact hpositive (zero_lt_of_unpack hunpack)
    · exact hpositive h

/-! ### Nodes -/

variable {point : Point}

/-- Whether the derivative of a node is zero at a point, by a letter that is no symbol, if those of
its operands are. -/
def KeepsConstancy (point : Point) : Expr → Prop
  | binary .div _ denominator => denominatorGuard < (mul denominator denominator).eval point
  | binary .pow base exponent =>
      denominatorGuard < base.eval point ∨
        (0 < base.eval point ∧ ((pow base exponent).eval point == 0) = true)
  | call .sin argument => (Binary32.cos (argument.eval point) == 0) = true
  | call .cos argument => (Binary32.sin (argument.eval point) == 0) = true
  | call .ln argument => (quotient 1 (argument.eval point) == 0) = true
  | _ => True

instance (point : Point) : (e : Expr) → Decidable (e.KeepsConstancy point)
  | binary .div _ _ => inferInstanceAs (Decidable (_ < _))
  | binary .pow _ _ => inferInstanceAs (Decidable (_ ∨ _ ∧ _))
  | call .sin _ | call .cos _ | call .ln _ => inferInstanceAs (Decidable (_ = true))
  | constant .. | symbol _ | neg _ | binary .add .. | binary .sub .. | binary .mul .. =>
      inferInstanceAs (Decidable True)

/-- The rule of a node keeps constancy exactly where `KeepsConstancy` says so. -/
theorem isZero_derivative_iff {e : Expr} (hfinite : (e.eval point).isFinite = true)
    (hoperands : ∀ operand ∈ e.operands, (operand.eval point).isFinite = true ∧
      IsZero ((operand.derivativeBy none).eval point)) :
    IsZero ((e.derivativeBy none).eval point) ↔ e.KeepsConstancy point := by
  cases e with
  | constant value places => exact iff_of_true isZero_zero trivial
  | symbol name => exact iff_of_true isZero_zero trivial
  | neg operand =>
    obtain ⟨-, hzero⟩ := hoperands operand (by simp [operands])
    exact iff_of_true hzero.neg trivial
  | binary operator f g =>
    obtain ⟨hf, hf'⟩ := hoperands f (by simp [operands])
    obtain ⟨hg, hg'⟩ := hoperands g (by simp [operands])
    cases operator with
    | add => exact iff_of_true (hf'.add hg') trivial
    | sub => exact iff_of_true (hf'.sub hg') trivial
    | mul => exact iff_of_true ((isZero_mul_zero hg' hf).add (isZero_mul_zero hf' hg)) trivial
    | div => exact isZero_quotient_iff ((isZero_mul_zero hf' hg).sub (isZero_mul_zero hg' hf))
    | pow =>
      refine (isZero_power_iff hfinite hf hg hf' hg').trans ?_
      rw [KeepsConstancy, beq_zero_iff]
  | call function argument =>
    cases function with
    | sin | ln => exact beq_zero_iff.symm
    | cos => exact isZero_neg_iff.trans beq_zero_iff.symm

/-! ### Expressions -/

/-- By a letter that is no symbol nothing is a variable. -/
theorem derivativeByLetter_eq {letter : Char} (h : ∀ name : Symbol, name.letter ≠ letter)
    (e : Expr) : e.derivativeByLetter letter = e.derivativeBy none := by
  have hnone : Symbol.ofLetter? letter = none := by
    unfold Symbol.ofLetter?
    split
    · exact absurd rfl (h .t)
    · exact absurd rfl (h .x)
    · exact absurd rfl (h .y)
    · exact absurd rfl (h .z)
    · rfl
  rw [derivativeByLetter, hnone]

/-- Where all nodes keep constancy, the derivatives of all of them are zeros. -/
theorem isZero_derivative_of_keepsConstancy {e : Expr}
    (hfinite : ∀ node ∈ e.subexpressions, (node.eval point).isFinite = true)
    (hkeeps : ∀ node ∈ e.subexpressions, node.KeepsConstancy point) :
    ∀ node ∈ e.subexpressions, IsZero ((node.derivativeBy none).eval point) := by
  induction e using operand_induction with
  | step e ih =>
    have hbelow (operand : Expr) (hmem : operand ∈ e.operands) :=
      ih operand hmem (fun node hnode ↦ hfinite node (mem_subexpressions_of_operand hmem hnode))
        fun node hnode ↦ hkeeps node (mem_subexpressions_of_operand hmem hnode)
    intro node hnode
    rcases mem_subexpressions_iff.1 hnode with rfl | ⟨operand, hmem, hnode⟩
    · refine (isZero_derivative_iff (hfinite node hnode) fun operand hmem ↦ ?_).2
        (hkeeps node hnode)
      exact ⟨hfinite operand (mem_subexpressions_of_operand hmem operand.self_mem_subexpressions),
        hbelow operand hmem operand operand.self_mem_subexpressions⟩
    · exact hbelow operand hmem node hnode

/-- At a point where an expression and its subexpressions are finite and keep constancy, its
derivative by a letter that is no symbol is zero. -/
theorem derivativeByLetter_beq_zero {letter : Char}
    (hletter : ∀ name : Symbol, name.letter ≠ letter) {e : Expr}
    (hfinite : ∀ node ∈ e.subexpressions, (node.eval point).isFinite = true)
    (hkeeps : ∀ node ∈ e.subexpressions, node.KeepsConstancy point) :
    ((e.derivativeByLetter letter).eval point == 0) = true := by
  rw [derivativeByLetter_eq hletter, beq_zero_iff]
  exact isZero_derivative_of_keepsConstancy hfinite hkeeps e e.self_mem_subexpressions

/-- At a point where an expression and its subexpressions are finite, all their derivatives by a
letter that is no symbol are zero exactly if all of their nodes keep constancy there. -/
theorem derivativeByLetter_beq_zero_iff {letter : Char}
    (hletter : ∀ name : Symbol, name.letter ≠ letter) {e : Expr}
    (hfinite : ∀ node ∈ e.subexpressions, (node.eval point).isFinite = true) :
    (∀ node ∈ e.subexpressions, ((node.derivativeByLetter letter).eval point == 0) = true) ↔
      ∀ node ∈ e.subexpressions, node.KeepsConstancy point := by
  simp only [derivativeByLetter_eq hletter, beq_zero_iff]
  refine ⟨fun hzero node hnode ↦ ?_, isZero_derivative_of_keepsConstancy hfinite⟩
  refine (isZero_derivative_iff (hfinite node hnode) fun operand hmem ↦ ?_).1 (hzero node hnode)
  have hoperand : operand ∈ e.subexpressions := mem_subexpressions_trans hnode
    (mem_subexpressions_of_operand hmem operand.self_mem_subexpressions)
  exact ⟨hfinite operand hoperand, hzero operand hoperand⟩

/-- The derivative of `(x * 3 - -z) / (y^2 + 1)` by the letter `q` is zero at `(1, 2, 3)`. -/
theorem derivativeByLetter_quotient_of_power :
    let e : Expr := div (sub (mul (symbol .x) (constant 3 0)) (neg (symbol .z)))
      (add (pow (symbol .y) (constant 2 0)) one)
    let point : Point := ⟨1, 2, 3⟩
    (∀ name : Symbol, name.letter ≠ 'q') ∧
      (∀ node ∈ e.subexpressions, (node.eval point).isFinite = true) ∧
      (∀ node ∈ e.subexpressions, node.KeepsConstancy point) ∧
      ((e.derivativeByLetter 'q').eval point == 0) = true := by
  intro e point
  have hletter : ∀ name : Symbol, name.letter ≠ 'q' := by
    intro name
    cases name <;> decide
  have hfinite : ∀ node ∈ e.subexpressions, (node.eval point).isFinite = true := by
    decide +kernel
  have hkeeps : ∀ node ∈ e.subexpressions, node.KeepsConstancy point := by decide +kernel
  have hzero := (derivativeByLetter_beq_zero_iff hletter hfinite).2 hkeeps
  exact ⟨hletter, hfinite, hkeeps, hzero e e.self_mem_subexpressions⟩

/-- By the letter `q`, the derivatives of `sin(x)`, of `x / y` with a small `y`, and of `x^2` with a
negative `x` are not zero, though the values are finite and no quotient in them is guarded. -/
theorem derivativeByLetter_not_zero :
    let sine : Expr := call .sin (symbol .x)
    let ratio : Expr := div (symbol .x) (symbol .y)
    let square : Expr := pow (symbol .x) (constant 2 0)
    (∀ name : Symbol, name.letter ≠ 'q') ∧
      ((∀ node ∈ sine.subexpressions, (node.eval ⟨0, 0, 0⟩).isFinite = true) ∧
        (sine.derivativeByLetter 'q').eval ⟨0, 0, 0⟩ = 1) ∧
      ((∀ node ∈ ratio.subexpressions, (node.eval ⟨1, 0.001, 0⟩).isFinite = true) ∧
        denominatorGuard < (symbol .y).eval ⟨1, 0.001, 0⟩ ∧
        (ratio.derivativeByLetter 'q').eval ⟨1, 0.001, 0⟩ = guardedQuotient) ∧
      (∀ node ∈ square.subexpressions, (node.eval ⟨-3, 0, 0⟩).isFinite = true) ∧
        ((square.derivativeByLetter 'q').eval ⟨-3, 0, 0⟩).isNaN = true := by
  intro sine ratio square
  refine ⟨?_, ⟨?_, ?_⟩, ⟨?_, ?_, ?_⟩, ?_, ?_⟩
  · intro name
    cases name <;> decide
  all_goals decide +kernel

end Nabla.Expr
