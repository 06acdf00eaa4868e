import Nabla.Proofs.Binary32.ExactValue
import Nabla.Proofs.Expr.NormalForm
import Nabla.Vector.Field

/-!
# The curl of a gradient

The curl of a gradient is zero (`rawCurl_gradient`). Expressions are evaluated exactly here, over
the rational numbers: `exactValue?` gives the exact value of an expression at a point, or none where
a denominator is zero. As the two orders of differentiation give trees of different shapes, the
value of an expression, its two derivatives and the two mixed ones are followed together
(`exists_mixed`).
-/

namespace Nabla

namespace Expr

/-! ### Exact values -/

/-- The exact value of an operation. A quotient by zero has none, and neither has a power. -/
def exactOperator? : Operator → ℚ → ℚ → Option ℚ
  | .add, left, right => some (left + right)
  | .sub, left, right => some (left - right)
  | .mul, left, right => some (left * right)
  | .div, left, right => if right = 0 then none else some (left / right)
  | .pow, _, _ => none

/-- The exact value of an expression, given those of the symbols. -/
def exactValue? (point : Symbol → ℚ) : Expr → Option ℚ
  | constant value _ => Binary32.rational? value
  | symbol name => some (point name)
  | neg operand => (operand.exactValue? point).map (- ·)
  | binary operator left right =>
      (left.exactValue? point).bind fun l ↦
        (right.exactValue? point).bind fun r ↦ exactOperator? operator l r
  | call _ _ => none

/-- Whether an expression is built from finite constants and symbols by negations, sums,
differences, products and quotients. -/
def isRational : Expr → Bool
  | constant value _ => value.isFinite
  | symbol _ => true
  | neg operand => operand.isRational
  | binary operator left right => operator != .pow && left.isRational && right.isRational
  | call _ _ => false

variable {point : Symbol → ℚ}

/-- The exact value of the constant zero. -/
theorem exactValue?_zero : zero.exactValue? point = some 0 := by
  have hparts : Binary32.parts 0 = .finite false 0 0 := by decide +kernel
  rw [zero, exactValue?, Binary32.rational?, hparts]
  simp [Binary32.signed]

/-- The exact value of the constant one. -/
theorem exactValue?_one : one.exactValue? point = some 1 := by
  have hparts : Binary32.parts 1 = .finite false 8388608 (-23) := by decide +kernel
  rw [one, exactValue?, Binary32.rational?, hparts]
  norm_num [Binary32.signed]

/-- The exact value of a negation. -/
theorem exactValue?_neg {operand : Expr} {value : ℚ} (h : operand.exactValue? point = some value) :
    (neg operand).exactValue? point = some (-value) := by
  rw [exactValue?, h, Option.map_some]

section

variable {left right : Expr} {l r : ℚ} (hl : left.exactValue? point = some l)
  (hr : right.exactValue? point = some r)

include hl hr

/-- The exact value of an operator is that of its operands. -/
theorem exactValue?_binary (operator : Operator) :
    (binary operator left right).exactValue? point = exactOperator? operator l r := by
  rw [exactValue?, hl, hr, Option.bind_some, Option.bind_some]

/-- The exact value of a sum. -/
theorem exactValue?_add : (add left right).exactValue? point = some (l + r) :=
  exactValue?_binary hl hr .add

/-- The exact value of a difference. -/
theorem exactValue?_sub : (sub left right).exactValue? point = some (l - r) :=
  exactValue?_binary hl hr .sub

/-- The exact value of a product. -/
theorem exactValue?_mul : (mul left right).exactValue? point = some (l * r) :=
  exactValue?_binary hl hr .mul

/-- The exact value of a quotient, where the denominator is not zero. -/
theorem exactValue?_div (hne : r ≠ 0) : (div left right).exactValue? point = some (l / r) :=
  (exactValue?_binary hl hr .div).trans (if_neg hne)

end

/-- An expression has an exact value where no denominator in it is zero. -/
theorem exists_exactValue? {e : Expr} (hrational : e.isRational = true)
    (hdenominators : ∀ numerator denominator, div numerator denominator ∈ e.subexpressions →
      denominator.exactValue? point ≠ some 0) :
    ∃ value, e.exactValue? point = some value := by
  induction e with
  | constant value places => exact Binary32.exists_rational? hrational
  | symbol name => exact ⟨_, rfl⟩
  | neg operand ih =>
    obtain ⟨value, hvalue⟩ := ih hrational fun numerator denominator hmem ↦
      hdenominators numerator denominator (List.mem_cons_of_mem _ hmem)
    exact ⟨_, exactValue?_neg hvalue⟩
  | binary operator left right ihleft ihright =>
    -- no power is rational here, and a denominator is the only thing that can fail
    rw [isRational, Bool.and_eq_true, Bool.and_eq_true, bne_iff_ne] at hrational
    obtain ⟨⟨hpow, hleft⟩, hright⟩ := hrational
    obtain ⟨l, hl⟩ := ihleft hleft fun numerator denominator hmem ↦
      hdenominators numerator denominator (List.mem_cons_of_mem _ (List.mem_append_left _ hmem))
    obtain ⟨r, hr⟩ := ihright hright fun numerator denominator hmem ↦
      hdenominators numerator denominator (List.mem_cons_of_mem _ (List.mem_append_right _ hmem))
    cases operator with
    | add => exact ⟨_, exactValue?_add hl hr⟩
    | sub => exact ⟨_, exactValue?_sub hl hr⟩
    | mul => exact ⟨_, exactValue?_mul hl hr⟩
    | div =>
      have hne : r ≠ 0 := by
        rintro rfl
        exact hdenominators left right (self_mem_subexpressions _) hr
      exact ⟨_, exactValue?_div hl hr hne⟩
    | pow => exact absurd rfl hpow
  | call => cases hrational

/-! ### Mixed derivatives -/

/-- The exact values of the derivatives of an expression by two symbols, and of its mixed derivative
in either order. -/
structure Mixed (point : Symbol → ℚ) (v w : Symbol) (e : Expr) (byv byw mixed : ℚ) : Prop where
  first : (e.derivative v).exactValue? point = some byv
  second : (e.derivative w).exactValue? point = some byw
  firstThenSecond : ((e.derivative v).derivative w).exactValue? point = some mixed
  secondThenFirst : ((e.derivative w).derivative v).exactValue? point = some mixed

variable {v w : Symbol}

/-- All derivatives of a constant are zero. -/
theorem mixed_constant (value : Float32) (places : Nat) :
    Mixed point v w (constant value places) 0 0 0 :=
  ⟨exactValue?_zero, exactValue?_zero, exactValue?_zero, exactValue?_zero⟩

/-- The derivative of a symbol is the constant one or the constant zero, so a second one is zero. -/
theorem exists_derivative_symbol (point : Symbol → ℚ) (v w name : Symbol) :
    ∃ value, ((symbol name).derivative v).exactValue? point = some value ∧
      ((symbol name).derivative v).derivative w = zero := by
  by_cases h : some name = some v
  · have hone : (symbol name).derivative v = one := if_pos h
    rw [hone]
    exact ⟨1, exactValue?_one, rfl⟩
  · have hzero : (symbol name).derivative v = zero := if_neg h
    rw [hzero]
    exact ⟨0, exactValue?_zero, rfl⟩

/-- A symbol has mixed derivatives that agree. -/
theorem exists_mixed_symbol (name : Symbol) :
    ∃ byv byw mixed, Mixed point v w (symbol name) byv byw mixed := by
  obtain ⟨byv, hv, hvw⟩ := exists_derivative_symbol point v w name
  obtain ⟨byw, hw, hwv⟩ := exists_derivative_symbol point w v name
  exact ⟨byv, byw, 0, hv, hw, hvw ▸ exactValue?_zero, hwv ▸ exactValue?_zero⟩

/-- The mixed derivatives agree in either order. -/
theorem Mixed.swap {e : Expr} {byv byw mixed : ℚ} (h : Mixed point v w e byv byw mixed) :
    Mixed point w v e byw byv mixed :=
  ⟨h.second, h.first, h.secondThenFirst, h.firstThenSecond⟩

section

variable {f g : Expr} {a b fv fw fvw gv gw gvw : ℚ}

/-- Mixed derivatives that agree are negated together. -/
theorem Mixed.neg (hf : Mixed point v w f fv fw fvw) :
    Mixed point v w (neg f) (-fv) (-fw) (-fvw) :=
  ⟨exactValue?_neg hf.first, exactValue?_neg hf.second, exactValue?_neg hf.firstThenSecond,
    exactValue?_neg hf.secondThenFirst⟩

variable (hf : Mixed point v w f fv fw fvw) (hg : Mixed point v w g gv gw gvw)

include hf hg

/-- Mixed derivatives that agree are added. -/
theorem Mixed.add : Mixed point v w (add f g) (fv + gv) (fw + gw) (fvw + gvw) :=
  ⟨exactValue?_add hf.first hg.first, exactValue?_add hf.second hg.second,
    exactValue?_add hf.firstThenSecond hg.firstThenSecond,
    exactValue?_add hf.secondThenFirst hg.secondThenFirst⟩

/-- Mixed derivatives that agree are subtracted. -/
theorem Mixed.sub : Mixed point v w (sub f g) (fv - gv) (fw - gw) (fvw - gvw) :=
  ⟨exactValue?_sub hf.first hg.first, exactValue?_sub hf.second hg.second,
    exactValue?_sub hf.firstThenSecond hg.firstThenSecond,
    exactValue?_sub hf.secondThenFirst hg.secondThenFirst⟩

variable (ha : f.exactValue? point = some a) (hb : g.exactValue? point = some b)

include ha hb

/-- The product rule, applied twice, is symmetric in the symbols. -/
theorem Mixed.mul :
    Mixed point v w (mul f g) (a * gv + b * fv) (a * gw + b * fw)
      (a * gvw + gv * fw + (b * fvw + fv * gw)) where
  first := exactValue?_add (exactValue?_mul ha hg.first) (exactValue?_mul hb hf.first)
  second := exactValue?_add (exactValue?_mul ha hg.second) (exactValue?_mul hb hf.second)
  firstThenSecond := exactValue?_add
    (exactValue?_add (exactValue?_mul ha hg.firstThenSecond) (exactValue?_mul hg.first hf.second))
    (exactValue?_add (exactValue?_mul hb hf.firstThenSecond) (exactValue?_mul hf.first hg.second))
  secondThenFirst := by
    have hvalue := exactValue?_add
      (exactValue?_add (exactValue?_mul ha hg.secondThenFirst) (exactValue?_mul hg.second hf.first))
      (exactValue?_add (exactValue?_mul hb hf.secondThenFirst) (exactValue?_mul hf.second hg.first))
    refine hvalue.trans (congrArg some ?_)
    ring

/-- The derivative of a quotient by one symbol and then by the other is a quotient by the fourth
power of the denominator. -/
theorem exactValue?_derivative_derivative_div (hne : b ≠ 0) :
    (((div f g).derivative v).derivative w).exactValue? point =
      some ((b * b * (b * fvw + fv * gw - (a * gvw + gv * fw)) -
        (b * fv - a * gv) * (b * gw + b * gw)) / (b * b * (b * b))) := by
  have hsquare := exactValue?_mul hb hb
  have hnumerator := exactValue?_sub (exactValue?_mul hb hf.first) (exactValue?_mul ha hg.first)
  have hnumerator' := exactValue?_sub
    (exactValue?_add (exactValue?_mul hb hf.firstThenSecond) (exactValue?_mul hf.first hg.second))
    (exactValue?_add (exactValue?_mul ha hg.firstThenSecond) (exactValue?_mul hg.first hf.second))
  have hsquare' := exactValue?_add (exactValue?_mul hb hg.second) (exactValue?_mul hb hg.second)
  exact exactValue?_div
    (exactValue?_sub (exactValue?_mul hsquare hnumerator') (exactValue?_mul hnumerator hsquare'))
    (exactValue?_mul hsquare hsquare) (by positivity)

/-- The quotient rule, applied twice, is symmetric in the symbols where the denominator is not zero.
-/
theorem Mixed.div (hne : b ≠ 0) :
    Mixed point v w (div f g) ((b * fv - a * gv) / (b * b)) ((b * fw - a * gw) / (b * b))
      ((b * b * (b * fvw + fv * gw - (a * gvw + gv * fw)) -
        (b * fv - a * gv) * (b * gw + b * gw)) / (b * b * (b * b))) where
  first := exactValue?_div (exactValue?_sub (exactValue?_mul hb hf.first)
    (exactValue?_mul ha hg.first)) (exactValue?_mul hb hb) (mul_ne_zero hne hne)
  second := exactValue?_div (exactValue?_sub (exactValue?_mul hb hf.second)
    (exactValue?_mul ha hg.second)) (exactValue?_mul hb hb) (mul_ne_zero hne hne)
  firstThenSecond := exactValue?_derivative_derivative_div hf hg ha hb hne
  secondThenFirst := by
    refine (exactValue?_derivative_derivative_div hf.swap hg.swap ha hb hne).trans
      (congrArg some (congrArg (· / (b * b * (b * b))) ?_))
    ring

end

/-- Where an expression has an exact value, so have its derivatives, and the two mixed ones have the
same. -/
theorem exists_mixed {e : Expr} {value : ℚ} (h : e.exactValue? point = some value) :
    ∃ byv byw mixed, Mixed point v w e byv byw mixed := by
  induction e generalizing value with
  | constant => exact ⟨0, 0, 0, mixed_constant _ _⟩
  | symbol name => exact exists_mixed_symbol name
  | neg operand ih =>
    obtain ⟨_, hoperand, -⟩ := Option.map_eq_some_iff.1 h
    obtain ⟨_, _, _, hmixed⟩ := ih hoperand
    exact ⟨_, _, _, hmixed.neg⟩
  | binary operator left right ihleft ihright =>
    obtain ⟨l, hl, h⟩ := Option.bind_eq_some_iff.1 h
    obtain ⟨r, hr, h⟩ := Option.bind_eq_some_iff.1 h
    obtain ⟨_, _, _, hleft⟩ := ihleft hl
    obtain ⟨_, _, _, hright⟩ := ihright hr
    cases operator with
    | add => exact ⟨_, _, _, hleft.add hright⟩
    | sub => exact ⟨_, _, _, hleft.sub hright⟩
    | mul => exact ⟨_, _, _, hleft.mul hright hl hr⟩
    | div =>
      have hne : r ≠ 0 := by
        rintro rfl
        cases h
      exact ⟨_, _, _, hleft.div hright hl hr hne⟩
    | pow => cases h
  | call => cases h

/-- The difference of the two mixed derivatives is zero. -/
theorem exactValue?_partialDifference {e : Expr} {value : ℚ}
    (h : e.exactValue? point = some value) :
    (VectorField.partialDifference (e.derivative v) (e.derivative w) w v).exactValue? point =
      some 0 := by
  obtain ⟨_, _, mixed, hmixed⟩ := exists_mixed (v := v) (w := w) h
  rw [VectorField.partialDifference,
    exactValue?_sub hmixed.firstThenSecond hmixed.secondThenFirst, sub_self]

end Expr

/-- The gradient of an expression. -/
def gradient (f : Expr) : VectorField :=
  ⟨f.derivative .x, f.derivative .y, f.derivative .z⟩

/-- The curl of a gradient is zero: at every point where no denominator of the expression is zero,
the differences that the curl is made of have the exact value zero, and mixed derivatives by any two
symbols have the same exact value in either order. -/
theorem rawCurl_gradient {f : Expr} {point : Symbol → ℚ} (hrational : f.isRational = true)
    (hdenominators : ∀ numerator denominator, .div numerator denominator ∈ f.subexpressions →
      denominator.exactValue? point ≠ some 0) :
    ((gradient f).rawCurl.i.exactValue? point = some 0 ∧
      (gradient f).rawCurl.j.exactValue? point = some 0 ∧
      (gradient f).rawCurl.k.exactValue? point = some 0) ∧
    ∀ v w, ∃ value, ((f.derivative v).derivative w).exactValue? point = some value ∧
      ((f.derivative w).derivative v).exactValue? point = some value := by
  obtain ⟨value, hvalue⟩ := Expr.exists_exactValue? hrational hdenominators
  refine ⟨⟨Expr.exactValue?_partialDifference hvalue, Expr.exactValue?_partialDifference hvalue,
    Expr.exactValue?_partialDifference hvalue⟩, fun v w ↦ ?_⟩
  obtain ⟨_, _, mixed, hmixed⟩ := Expr.exists_mixed (v := v) (w := w) hvalue
  exact ⟨mixed, hmixed.firstThenSecond, hmixed.secondThenFirst⟩

/-- The gradient of `x * y / (1 - z * x)` has no curl at a point off its poles. -/
theorem rawCurl_gradient_quotient :
    let f : Expr :=
      .div (.mul (.symbol .x) (.symbol .y)) (.sub .one (.mul (.symbol .z) (.symbol .x)))
    let point : Symbol → ℚ := fun name ↦ if name = .x then 2 else 1 / 3
    ((gradient f).rawCurl.i.exactValue? point = some 0 ∧
      (gradient f).rawCurl.j.exactValue? point = some 0 ∧
      (gradient f).rawCurl.k.exactValue? point = some 0) ∧
    ∀ v w, ∃ value, ((f.derivative v).derivative w).exactValue? point = some value ∧
      ((f.derivative w).derivative v).exactValue? point = some value := by
  intro f point
  have hdenominator :
      (Expr.sub .one (.mul (.symbol .z) (.symbol .x))).exactValue? point = some (1 - 1 / 3 * 2) :=
    Expr.exactValue?_sub Expr.exactValue?_one (Expr.exactValue?_mul rfl rfl)
  refine rawCurl_gradient (by decide) fun numerator denominator hmem ↦ ?_
  obtain ⟨-, rfl⟩ : numerator = .mul (.symbol .x) (.symbol .y) ∧
      denominator = .sub .one (.mul (.symbol .z) (.symbol .x)) := by
    simpa [f, Expr.subexpressions, Expr.one] using hmem
  rw [hdenominator]
  norm_num

end Nabla
