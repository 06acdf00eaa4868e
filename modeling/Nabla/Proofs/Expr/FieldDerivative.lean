import Mathlib
import Nabla.Expr.Derivative
import Nabla.Proofs.Expr.NormalForm

/-!
# Derivatives in a field

Expressions can be interpreted in any field, by choosing what numbers, symbols, functions and powers
stand for. In a field with a derivation for which the functions and the power have their usual
derivatives, the symbolic derivative stands for the derivative of what the expression stands for.
There is no chain rule, so functions may be applied to the symbol itself only.

The usual functions are an instance. `taylorInterpretation` interprets expressions in the field of
fractions of power series, by Taylor series at one.
-/

namespace Nabla.Expr

/-! ### Interpretations -/

/-- What numbers, symbols, functions and powers stand for in a field. -/
structure Interpretation (K : Type*) [Field K] where
  constant : Float32 → K
  symbol : Symbol → K
  function : Function → K → K
  power : K → K → K
  constant_zero : constant 0 = 0
  constant_one : constant 1 = 1

namespace Interpretation

variable {K : Type*} [Field K]

/-- What an operator stands for. -/
def operator (I : Interpretation K) : Operator → K → K → K
  | .add, left, right => left + right
  | .sub, left, right => left - right
  | .mul, left, right => left * right
  | .div, left, right => left / right
  | .pow, left, right => I.power left right

/-- What an expression stands for. -/
def interpret (I : Interpretation K) : Expr → K
  | .constant value _ => I.constant value
  | .symbol name => I.symbol name
  | .neg operand => -I.interpret operand
  | .binary operator left right => I.operator operator (I.interpret left) (I.interpret right)
  | .call function argument => I.function function (I.interpret argument)

/-- A derivation is the derivative by a symbol: all numbers and other symbols are constant, and the
functions of the symbol and all powers have their usual derivatives. -/
structure Differentiates (I : Interpretation K) (D : Derivation ℤ K K) (name : Symbol) : Prop where
  constant : ∀ value, D (I.constant value) = 0
  symbol_self : D (I.symbol name) = 1
  symbol_other : ∀ other, other ≠ name → D (I.symbol other) = 0
  sin : D (I.function .sin (I.symbol name)) = I.function .cos (I.symbol name)
  cos : D (I.function .cos (I.symbol name)) = -I.function .sin (I.symbol name)
  ln : D (I.function .ln (I.symbol name)) = 1 / I.symbol name
  power : ∀ base exponent, D (I.power base exponent) =
    I.power base exponent * (D exponent * I.function .ln base + exponent * D base / base)

variable {I : Interpretation K} {D : Derivation ℤ K K} {name : Symbol}

/-- The derivative of an operation stands for the derivative of what the operation stands for, if
those of its operands do. -/
theorem Differentiates.operatorDerivative (hI : I.Differentiates D name) (op : Operator)
    {f g f' g' : Expr} (hf : I.interpret f' = D (I.interpret f))
    (hg : I.interpret g' = D (I.interpret g)) :
    I.interpret (operatorDerivative op f g f' g') =
      D (I.operator op (I.interpret f) (I.interpret g)) := by
  cases op with
  | add =>
    show I.interpret f' + I.interpret g' = D (I.interpret f + I.interpret g)
    rw [map_add, hf, hg]
  | sub =>
    show I.interpret f' - I.interpret g' = D (I.interpret f - I.interpret g)
    rw [map_sub, hf, hg]
  | mul =>
    show I.interpret f * I.interpret g' + I.interpret g * I.interpret f' =
      D (I.interpret f * I.interpret g)
    rw [D.leibniz, hf, hg, smul_eq_mul, smul_eq_mul]
  | div =>
    show (I.interpret g * I.interpret f' - I.interpret f * I.interpret g') /
      (I.interpret g * I.interpret g) = D (I.interpret f / I.interpret g)
    rw [D.leibniz_div, hf, hg, smul_eq_mul, smul_eq_mul, smul_eq_mul, inv_pow, ← pow_two,
      div_eq_inv_mul]
  | pow =>
    show I.power (I.interpret f) (I.interpret g) *
      (I.interpret g' * I.function .ln (I.interpret f) +
        I.interpret g * I.interpret f' / I.interpret f) =
      D (I.power (I.interpret f) (I.interpret g))
    rw [hI.power, hf, hg]

/-- The derivative of a function of the symbol stands for its derivative. -/
theorem Differentiates.functionDerivative (hI : I.Differentiates D name) (function : Function) :
    I.interpret (functionDerivative function (.symbol name)) =
      D (I.function function (I.symbol name)) := by
  cases function with
  | sin => exact hI.sin.symm
  | cos => exact hI.cos.symm
  | ln =>
    show I.constant 1 / I.symbol name = _
    rw [I.constant_one, hI.ln]

/-- The symbolic derivative stands for the derivative of what the expression stands for, if every
function in it is applied to the symbol itself. As the field has a quotient by zero, nothing need be
said about denominators. -/
theorem Differentiates.interpret_derivative (hI : I.Differentiates D name) {e : Expr}
    (harguments : ∀ function argument, .call function argument ∈ e.subexpressions →
      argument = .symbol name) :
    I.interpret (e.derivative name) = D (I.interpret e) := by
  induction e with
  | constant value places =>
    show I.constant 0 = D (I.constant value)
    rw [I.constant_zero, hI.constant]
  | symbol other =>
    show I.interpret (if some other = some name then one else zero) = D (I.symbol other)
    by_cases hother : other = name
    · rw [if_pos (congrArg some hother), hother, hI.symbol_self]
      exact I.constant_one
    · rw [if_neg (fun h ↦ hother (Option.some.inj h)), hI.symbol_other other hother]
      exact I.constant_zero
  | neg operand ih =>
    have hoperand := ih fun function argument hmem ↦
      harguments function argument (List.mem_cons_of_mem _ hmem)
    show -I.interpret (operand.derivative name) = D (-I.interpret operand)
    rw [hoperand, map_neg]
  | binary operator left right ihleft ihright =>
    have hleft := ihleft fun function argument hmem ↦
      harguments function argument (List.mem_cons_of_mem _ (List.mem_append_left _ hmem))
    have hright := ihright fun function argument hmem ↦
      harguments function argument (List.mem_cons_of_mem _ (List.mem_append_right _ hmem))
    exact hI.operatorDerivative operator hleft hright
  | call function argument =>
    obtain rfl := harguments function argument List.mem_cons_self
    exact hI.functionDerivative function

end Interpretation

/-! ### Taylor series -/

section

open scoped Nat

/-- The Taylor series of a real function at one. -/
noncomputable def taylor (f : ℝ → ℝ) : PowerSeries ℝ :=
  .mk fun n ↦ iteratedDeriv n f 1 / (n ! : ℝ)

/-- The derivative of a Taylor series is that of the derivative. -/
theorem derivative_taylor (f : ℝ → ℝ) : PowerSeries.derivative ℝ (taylor f) = taylor (deriv f) := by
  ext n
  rw [PowerSeries.coeff_derivative, taylor, taylor, PowerSeries.coeff_mk, PowerSeries.coeff_mk,
    iteratedDeriv_succ', Nat.factorial_succ]
  push_cast
  have hpos : (n ! : ℝ) ≠ 0 := by positivity
  field_simp

end

/-- The Taylor series of a negated function. -/
theorem taylor_neg (f : ℝ → ℝ) : taylor (-f) = -taylor f := by
  ext n
  simp [taylor, iteratedDeriv_neg, neg_div]

/-- The Taylor series of the identity at one. -/
noncomputable def variableSeries : PowerSeries ℝ := 1 + PowerSeries.X

/-- The derivative of the variable is one. -/
theorem derivative_variableSeries : PowerSeries.derivative ℝ variableSeries = 1 := by
  rw [variableSeries, map_add, PowerSeries.derivative_one, PowerSeries.derivative_X, zero_add]

/-- The derivative of the logarithm is the reciprocal of the variable. -/
theorem derivative_log_mul :
    PowerSeries.derivative ℝ (PowerSeries.log ℝ) * variableSeries = 1 := by
  ext n
  rw [PowerSeries.deriv_log, variableSeries, mul_add, mul_one]
  cases n with
  | zero => simp
  | succ n => simp [PowerSeries.coeff_succ_mul_X, pow_succ, PowerSeries.coeff_one]

/-- The Taylor series of a function at one. -/
noncomputable def functionSeries : Function → PowerSeries ℝ
  | .sin => taylor Real.sin
  | .cos => taylor Real.cos
  | .ln => PowerSeries.log ℝ

/-- The real number that a finite number stands for. -/
noncomputable def realValue (value : Float32) : ℝ :=
  match Binary32.parts value with
  | .finite negative significand exponent => Binary32.signed negative significand * 2 ^ exponent
  | _ => 0

section

variable {K : Type*} [Field K]

/-- A derivation of a domain, extended to the field of fractions. -/
noncomputable def fractionDerivation {R A : Type*} [CommRing R] [CommRing A] [Algebra R A]
    [Algebra R K] [Algebra A K] [IsScalarTower R A K] [IsFractionRing A K]
    (D : Derivation R A A) : Derivation R K K :=
  have : Algebra.FormallyEtale A K := .of_isLocalization (nonZeroDivisors A)
  ((Algebra.linearMap A K ∘ₗ D.liftKaehlerDifferential).liftBaseChange K ∘ₗ
    (KaehlerDifferential.tensorKaehlerEquivOfFormallyEtale R A K).symm.toLinearMap).compDer
      (KaehlerDifferential.D R K)

/-- A derivation of a ring is the derivation of its fractions on the ring. -/
theorem fractionDerivation_algebraMap {R A : Type*} [CommRing R] [CommRing A] [Algebra R A]
    [Algebra R K] [Algebra A K] [IsScalarTower R A K] [IsFractionRing A K]
    (D : Derivation R A A) (a : A) :
    fractionDerivation D (algebraMap A K a) = algebraMap A K (D a) := by
  have : Algebra.FormallyEtale A K := .of_isLocalization (nonZeroDivisors A)
  simp [fractionDerivation,
    KaehlerDifferential.tensorKaehlerEquivOfFormallyEtale_symm_D_algebraMap]

variable [Algebra ℝ K] [Algebra (PowerSeries ℝ) K] [IsScalarTower ℝ (PowerSeries ℝ) K]
  [IsFractionRing (PowerSeries ℝ) K]

variable (K) in
/-- The derivative of fractions of power series. -/
noncomputable def seriesDerivation : Derivation ℤ K K :=
  (fractionDerivation (PowerSeries.derivative ℝ)).restrictScalars ℤ

/-- The derivation of fractions of series is the derivative on series. -/
theorem seriesDerivation_algebraMap (series : PowerSeries ℝ) :
    seriesDerivation K (algebraMap _ K series) =
      algebraMap _ K (PowerSeries.derivative ℝ series) := by
  rw [seriesDerivation, Derivation.restrictScalars_apply, fractionDerivation_algebraMap]

open Classical in
/-- Expressions of one variable as fractions of power series, the other symbols being numbers. A
function of the variable is its Taylor series at one, and powers have integers as exponents. -/
noncomputable def taylorInterpretation (name : Symbol) (values : Symbol → ℝ) :
    Interpretation K where
  constant value := algebraMap (PowerSeries ℝ) K (.C (realValue value))
  symbol other :=
    algebraMap (PowerSeries ℝ) K (if other = name then variableSeries else .C (values other))
  function function argument :=
    if argument = algebraMap (PowerSeries ℝ) K variableSeries then
      algebraMap (PowerSeries ℝ) K (functionSeries function)
    else 0
  power base exponent := if h : ∃ n : ℤ, exponent = n then base ^ h.choose else 0
  constant_zero := by
    have hvalue : realValue 0 = 0 := by
      rw [realValue, show Binary32.parts 0 = .finite false 0 0 by decide +kernel]
      simp [Binary32.signed]
    rw [hvalue, map_zero, map_zero]
  constant_one := by
    have hvalue : realValue 1 = 1 := by
      rw [realValue, show Binary32.parts 1 = .finite false 8388608 (-23) by decide +kernel]
      norm_num [Binary32.signed]
    rw [hvalue, map_one, map_one]

/-- The usual functions have their usual derivatives. -/
theorem differentiates_taylorInterpretation (name : Symbol) (values : Symbol → ℝ) :
    (taylorInterpretation name values).Differentiates (seriesDerivation K) name := by
  have hsymbol : (taylorInterpretation name values).symbol name =
      algebraMap (PowerSeries ℝ) K variableSeries := by
    simp only [taylorInterpretation, if_true]
  have hfunction (function : Function) :
      (taylorInterpretation name values).function function
        ((taylorInterpretation name values).symbol name) =
          algebraMap (PowerSeries ℝ) K (functionSeries function) := by
    rw [hsymbol]
    exact if_pos rfl
  constructor
  · intro value
    show seriesDerivation K (algebraMap _ K _) = 0
    rw [seriesDerivation_algebraMap, PowerSeries.derivative_C, map_zero]
  · rw [hsymbol, seriesDerivation_algebraMap, derivative_variableSeries, map_one]
  · intro other hother
    show seriesDerivation K (algebraMap _ K (if other = name then _ else _)) = 0
    rw [if_neg hother, seriesDerivation_algebraMap, PowerSeries.derivative_C, map_zero]
  · have hsin : PowerSeries.derivative ℝ (taylor Real.sin) = taylor Real.cos := by
      rw [derivative_taylor, Real.deriv_sin]
    rw [hfunction, hfunction, seriesDerivation_algebraMap]
    exact congrArg _ hsin
  · have hcos : PowerSeries.derivative ℝ (taylor Real.cos) = -taylor Real.sin := by
      have hderiv : deriv Real.cos = -Real.sin := Real.deriv_cos'
      rw [derivative_taylor, hderiv, taylor_neg]
    rw [hfunction, hfunction, seriesDerivation_algebraMap, ← map_neg]
    exact congrArg _ hcos
  · rw [hfunction, hsymbol, seriesDerivation_algebraMap]
    refine eq_one_div_of_mul_eq_one_left ?_
    rw [← map_mul, functionSeries, derivative_log_mul, map_one]
  · intro base exponent
    simp only [taylorInterpretation]
    split
    · rename_i h
      have hexponent := h.choose_spec
      generalize h.choose = n at hexponent ⊢
      subst hexponent
      rw [Derivation.leibniz_zpow, Derivation.map_intCast, zero_mul, zero_add, zsmul_eq_mul,
        smul_eq_mul]
      rcases eq_or_ne base 0 with rfl | hbase
      · rw [map_zero, mul_zero, mul_zero, zero_div, mul_zero]
      · rw [zpow_sub_one₀ hbase]
        ring
    · rw [map_zero, zero_mul]

end

/-- The derivative of `x^2 * sin(x) / (ln(x) + y)` stands for the derivative of the Taylor series
of that function, where the symbol `y` is `3`. -/
theorem interpret_derivative_taylor :
    let e : Expr := .div (.mul (.pow (.symbol .x) (.constant 2 0)) (.call .sin (.symbol .x)))
      (.add (.call .ln (.symbol .x)) (.symbol .y))
    let I : Interpretation (FractionRing (PowerSeries ℝ)) := taylorInterpretation .x fun _ ↦ 3
    let D := seriesDerivation (FractionRing (PowerSeries ℝ))
    I.Differentiates D .x ∧
      (∀ function argument, .call function argument ∈ e.subexpressions →
        argument = .symbol .x) ∧
      I.interpret (e.derivative .x) = D (I.interpret e) := by
  intro e I D
  have hI : I.Differentiates D .x := differentiates_taylorInterpretation .x _
  have harguments : ∀ function argument, .call function argument ∈ e.subexpressions →
      argument = .symbol .x := by
    intro function argument hmem
    have hcalls : function = .sin ∧ argument = .symbol .x ∨
        function = .ln ∧ argument = .symbol .x := by
      simpa [e, subexpressions] using hmem
    rcases hcalls with ⟨-, hargument⟩ | ⟨-, hargument⟩ <;> exact hargument
  exact ⟨hI, harguments, hI.interpret_derivative harguments⟩

end Nabla.Expr
