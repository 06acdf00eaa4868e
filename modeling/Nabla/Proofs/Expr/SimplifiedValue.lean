import Nabla.Expr.Evaluation
import Nabla.Proofs.Binary32.Elementary
import Nabla.Proofs.Expr.NormalForm

/-!
# The value of a simplified expression

The rules take a constant for zero or one when it is only cut off to it, and fold a quotient of
constants with another guard than evaluation has. So simplification can change the value of an
expression. It does not where the constants that arise are integers, every value is finite, and
every denominator is above the guard (`eval_simplify_beq`).

Nothing else has to be known of the sine, the cosine, the logarithm and the power than that they do
not tell one zero from the other where they are finite. So this is a theory of values whatever these
functions and the symbols stand for (`evalIn_simplify_beq`).

`Tame` is what of the conditions is needed at one node. A step at a tame node keeps the value and
leads to a tame node, or to an operand, which is simplified already.
-/

namespace Nabla.Expr

open Binary32

/-! ### Meanings -/

/-- What the symbols, the functions and the power stand for. -/
structure Meaning where
  symbol : Symbol → Float32
  call : Function → Float32 → Float32
  pow : Float32 → Float32 → Float32

namespace Meaning

/-- What they stand for at a point. -/
def standard (point : Point) : Meaning := ⟨point.value, applyFunction, Binary32.pow⟩

/-- The value of an operator. -/
def operator (meaning : Meaning) : Operator → Float32 → Float32 → Float32
  | .add, left, right => left + right
  | .sub, left, right => left - right
  | .mul, left, right => left * right
  | .div, left, right => quotient left right
  | .pow, left, right => meaning.pow left right

/-- The functions and the power do not tell one zero from the other: from the same numbers, up to
the signs of zeros, they lead to the same number if they lead to a finite one. -/
structure IgnoresZeroSigns (meaning : Meaning) : Prop where
  call : ∀ (function : Function) {argument argument' : Float32}, SameNumber argument argument' →
    (meaning.call function argument).isFinite = true →
      SameNumber (meaning.call function argument) (meaning.call function argument')
  pow : ∀ {base base' exponent exponent' : Float32}, SameNumber base base' →
    SameNumber exponent exponent' → (meaning.pow base exponent).isFinite = true →
      SameNumber (meaning.pow base exponent) (meaning.pow base' exponent')

/-- The functions that expressions are evaluated with ignore the signs of zeros. -/
theorem ignoresZeroSigns_standard (point : Point) : (standard point).IgnoresZeroSigns where
  call function := by
    intro argument argument' h _
    cases function with
    | sin => exact h.sin
    | cos => exact h.cos
    | ln => exact h.ln
  pow hbase hexponent hfinite := hbase.pow hexponent hfinite

end Meaning

/-- The value of an expression with a given meaning of its parts. -/
def evalIn (meaning : Meaning) : Expr → Float32
  | constant value _ => value
  | symbol name => meaning.symbol name
  | neg operand => -operand.evalIn meaning
  | binary operator left right =>
      meaning.operator operator (left.evalIn meaning) (right.evalIn meaning)
  | call function argument => meaning.call function (argument.evalIn meaning)

/-- The value at a point is that with the meaning at the point. -/
theorem eval_eq_evalIn (point : Point) (e : Expr) : e.eval point = e.evalIn (.standard point) := by
  induction e with
  | constant value places => rfl
  | symbol name => rfl
  | neg operand ih => rw [eval, evalIn, ih]
  | binary operator left right ihleft ihright =>
    rw [eval, evalIn, ihleft, ihright]
    cases operator <;> rfl
  | call function argument ih =>
    rw [eval, evalIn, ih]
    rfl

variable {meaning : Meaning} {point : Point}

/-! ### Operators -/

/-- A quotient is the rounded one where the denominator is above the guard. -/
theorem quotient_of_lt {numerator denominator : Float32} (h : denominatorGuard < denominator) :
    quotient numerator denominator = numerator / denominator :=
  if_neg (not_le_of_lt h)

/-- The guard has a positive significand and the exponent -40. -/
theorem unpack_denominatorGuard : denominatorGuard.toModel.unpack =
    .finite .positive 10995116 (-40) (by decide) := rfl

/-- A zero is not above the guard. -/
theorem le_denominatorGuard_of_isZero {denominator : Float32} (h : IsZero denominator) :
    denominator ≤ denominatorGuard :=
  h.le unpack_denominatorGuard

/-- What is above the guard is no zero. -/
theorem not_isZero_of_lt {denominator : Float32} (h : denominatorGuard < denominator) :
    ¬ IsZero denominator :=
  fun hzero ↦ not_le_of_lt h (le_denominatorGuard_of_isZero hzero)

/-- A guarded quotient does not tell a zero from the other one. -/
theorem sameNumber_quotient {n n' d d' : Float32} (hn : SameNumber n n') (hd : SameNumber d d') :
    SameNumber (quotient n d) (quotient n' d') := by
  unfold quotient
  rcases hd.eq_or_isZero with rfl | ⟨hzero, hzero'⟩
  · split
    · rfl
    · exact hn.div_right d
  · rw [if_pos (le_denominatorGuard_of_isZero hzero), if_pos (le_denominatorGuard_of_isZero hzero')]

/-- The operators ignore the signs of zeros if the power does. -/
theorem Meaning.IgnoresZeroSigns.operator (h : meaning.IgnoresZeroSigns) {op : Operator}
    {left left' right right' : Float32} (hleft : SameNumber left left')
    (hright : SameNumber right right')
    (hfinite : (meaning.operator op left right).isFinite = true) :
    SameNumber (meaning.operator op left right) (meaning.operator op left' right') := by
  cases op with
  | add => exact hleft.add hright
  | sub => exact hleft.sub hright
  | mul => exact hleft.mul hright
  | div => exact sameNumber_quotient hleft hright
  | pow => exact h.pow hleft hright hfinite

/-! ### Constants -/

/-- Nothing but zero is cut off to zero. -/
theorem eq_zero_of_clampWord {n : Int} (h : clampWord n = 0) : n = 0 := by
  have hword : Int.pow 2 63 = 9223372036854775808 := rfl
  unfold clampWord at h
  omega

/-- Nothing but one is cut off to one. -/
theorem eq_one_of_clampWord {n : Int} (h : clampWord n = 1) : n = 1 := by
  have hword : Int.pow 2 63 = 9223372036854775808 := rfl
  unfold clampWord at h
  omega

/-- If an expression is a constant, it is an integer. -/
def IntegerIfConstant (e : Expr) : Prop :=
  ∀ value places, e = constant value places → isInteger value = true

/-- An integer that is taken for zero is a zero. -/
theorem isZero_evalIn {e : Expr} (hinteger : e.IntegerIfConstant) (h : e.isZero = true) :
    IsZero (e.evalIn meaning) := by
  cases e with
  | constant value places =>
    obtain ⟨n, htruncate, hclamp⟩ := Option.map_eq_some_iff.1 (beq_iff_eq.1 h)
    rw [eq_zero_of_clampWord hclamp] at htruncate
    exact isZero_of_truncate? (hinteger value places rfl) htruncate
  | symbol | neg | binary | call => cases h

/-- An integer that is taken for one is one. -/
theorem evalIn_eq_one {e : Expr} (hinteger : e.IntegerIfConstant) (h : e.isOne = true) :
    e.evalIn meaning = 1 := by
  cases e with
  | constant value places =>
    obtain ⟨n, htruncate, hclamp⟩ := Option.map_eq_some_iff.1 (beq_iff_eq.1 h)
    rw [eq_one_of_clampWord hclamp] at htruncate
    exact eq_one_of_truncate? (hinteger value places rfl) htruncate
  | symbol | neg | binary | call => cases h

/-! ### Steps -/

/-- The operands of a node are simplified and finite, those that are constants are integers, and a
denominator is above the guard. -/
structure Tame (meaning : Meaning) (e : Expr) : Prop where
  normal : ∀ operand ∈ e.operands, operand.Normal
  isFinite : ∀ operand ∈ e.operands, (operand.evalIn meaning).isFinite = true
  integer : ∀ operand ∈ e.operands, operand.IntegerIfConstant
  guard_lt : ∀ {numerator denominator : Expr}, e = div numerator denominator →
    denominatorGuard < denominator.evalIn meaning

/-- A step at a tame node keeps the value. -/
theorem Tame.sameNumber_of_rewrites {e result : Expr} (h : e.Tame meaning)
    (hstep : Rewrites e result) : SameNumber (result.evalIn meaning) (e.evalIn meaning) := by
  cases hstep with
  | @fold operator left right value places otherPlaces step hfold =>
    cases operator with
    | add | sub | mul =>
      simp only [Rule.fold?, Option.some.injEq, Prod.mk.injEq] at hfold
      simp only [evalIn, Meaning.operator, hfold.1, SameNumber.refl]
    | div =>
      have hguard : denominatorGuard < (constant right otherPlaces).evalIn meaning := h.guard_lt rfl
      rw [evalIn] at hguard
      -- folding looks at the divisor cut off, evaluation at the guard; above the guard both divide
      have htruncate : ¬ truncate? right = some 0 := fun hzero ↦
        not_isZero_of_lt hguard (isZero_of_truncate?
          (h.integer (constant right otherPlaces) (by simp [operands]) _ _ rfl) hzero)
      simp only [Rule.fold?, if_neg htruncate, Option.some.injEq, Prod.mk.injEq] at hfold
      simp only [evalIn, Meaning.operator, quotient_of_lt hguard, hfold.1, SameNumber.refl]
    | pow => simp [Rule.fold?] at hfold
  | negateConstant value places => exact .refl (-value)
  | doubleNegation operand =>
    show SameNumber (result.evalIn meaning) (- -result.evalIn meaning)
    rw [Binary32.neg_neg]
  | @zeroAdd left right hzero =>
    exact (Binary32.zero_add (isZero_evalIn (h.integer left (by simp [operands])) hzero) _).symm
  | @addZero left right hzero =>
    exact (Binary32.add_zero (isZero_evalIn (h.integer right (by simp [operands])) hzero) _).symm
  | @zeroSub left right hzero =>
    exact (Binary32.zero_sub (isZero_evalIn (h.integer left (by simp [operands])) hzero) _).symm
  | @subZero left right hzero =>
    exact (Binary32.sub_zero (isZero_evalIn (h.integer right (by simp [operands])) hzero) _).symm
  | subNeg left operand =>
    show SameNumber (left.evalIn meaning + operand.evalIn meaning)
      (left.evalIn meaning - -operand.evalIn meaning)
    rw [Binary32.sub_neg]
  | @zeroMul left right hzero =>
    exact isZero_zero.sameNumber (isZero_zero_mul
      (isZero_evalIn (h.integer left (by simp [operands])) hzero)
      (h.isFinite right (by simp [operands])))
  | @mulZero left right hzero =>
    exact isZero_zero.sameNumber (isZero_mul_zero
      (isZero_evalIn (h.integer right (by simp [operands])) hzero)
      (h.isFinite left (by simp [operands])))
  | @oneMul left right hone =>
    show SameNumber (result.evalIn meaning) (left.evalIn meaning * result.evalIn meaning)
    rw [evalIn_eq_one (h.integer left (by simp [operands])) hone, Binary32.one_mul]
  | @mulOne left right hone =>
    show SameNumber (result.evalIn meaning) (result.evalIn meaning * right.evalIn meaning)
    rw [evalIn_eq_one (h.integer right (by simp [operands])) hone, Binary32.mul_one]
  | @divOne left right hone =>
    show SameNumber (result.evalIn meaning)
      (quotient (result.evalIn meaning) (right.evalIn meaning))
    rw [quotient_of_lt (h.guard_lt rfl), evalIn_eq_one (h.integer right (by simp [operands])) hone,
      Binary32.div_one]
  | @zeroDiv left right hzero =>
    have hguard : denominatorGuard < right.evalIn meaning := h.guard_lt rfl
    show SameNumber 0 (quotient (left.evalIn meaning) (right.evalIn meaning))
    rw [quotient_of_lt hguard]
    exact isZero_zero.sameNumber (isZero_zero_div
      (isZero_evalIn (h.integer left (by simp [operands])) hzero)
      (h.isFinite right (by simp [operands])) (not_isZero_of_lt hguard))

/-- A constant has no operands to ask something of. -/
theorem tame_constant (value : Float32) (places : Nat) : (constant value places).Tame meaning where
  normal := by simp [operands]
  isFinite := by simp [operands]
  integer := by simp [operands]
  guard_lt := by simp

/-- The negation of a constant is a constant in simplified form. -/
theorem not_normal_neg_constant {value : Float32} {places : Nat} :
    ¬ (neg (constant value places)).Normal := by
  intro h
  cases (normal_iff.1 h).1

/-- A step at a tame node leads to a tame node, or to an expression that is simplified already. -/
theorem Tame.of_rewrites {e result : Expr} (h : e.Tame meaning) (hstep : Rewrites e result) :
    result.Tame meaning ∨ result.Normal := by
  cases hstep with
  | fold | negateConstant | zeroMul | mulZero | zeroDiv => exact .inl (tame_constant _ _)
  | doubleNegation =>
    have hoperand : (neg result).Normal := h.normal _ (by simp [operands])
    exact .inr (hoperand.operand (by simp [operands]))
  | zeroAdd | oneMul | addZero | subZero | mulOne | divOne =>
    exact .inr (h.normal _ (by simp [operands]))
  | @zeroSub left right hzero =>
    have hmem {operand : Expr} (h : operand ∈ (neg right).operands) :
        operand ∈ (sub left right).operands := by simp_all [operands]
    exact .inl ⟨fun operand ho ↦ h.normal operand (hmem ho),
      fun operand ho ↦ h.isFinite operand (hmem ho),
      fun operand ho ↦ h.integer operand (hmem ho), by simp⟩
  | subNeg left operand =>
    have hleft : left ∈ (sub left (neg operand)).operands := by simp [operands]
    have hright : neg operand ∈ (sub left (neg operand)).operands := by simp [operands]
    have hfinite : (operand.evalIn meaning).isFinite = true := by
      have hneg := h.isFinite _ hright
      rwa [evalIn, isFinite_neg] at hneg
    -- A negation that is simplified already is not that of a constant.
    have hinteger : operand.IntegerIfConstant := by
      rintro value places rfl
      exact absurd (h.normal _ hright) not_normal_neg_constant
    have hnormal : operand.Normal := (h.normal _ hright).operand (by simp [operands])
    refine .inl ⟨?_, ?_, ?_, by simp⟩
    · simpa [operands] using ⟨h.normal left hleft, hnormal⟩
    · simpa [operands] using ⟨h.isFinite left hleft, hfinite⟩
    · simpa [operands] using ⟨h.integer left hleft, hinteger⟩

/-- To settle a tame node keeps the value. -/
theorem sameNumber_evalIn_settle {e : Expr} (h : e.Tame meaning ∨ e.Normal) :
    SameNumber ((settle e).1.evalIn meaning) (e.evalIn meaning) := by
  induction e using settle.induct with
  | case1 e hnone => rw [settle_of_none hnone]
  | case2 e result step hsome settled steps hsettle ih =>
    rw [settle_of_some hsome]
    rcases h with htame | hnormal
    · have hstep := Rule.rewrites_of_all hsome
      exact (ih (htame.of_rewrites hstep)).trans (htame.sameNumber_of_rewrites hstep)
    · cases (normal_iff.1 hnormal).1.symm.trans hsome

/-! ### Simplification -/

/-- An expression keeps its value if its operands keep theirs. -/
theorem sameNumber_evalIn_simplifyOperands (hmeaning : meaning.IgnoresZeroSigns) {e : Expr}
    (h : ∀ operand ∈ e.operands,
      SameNumber (operand.simplify.evalIn meaning) (operand.evalIn meaning))
    (hfinite : (e.evalIn meaning).isFinite = true) :
    SameNumber (e.simplifyOperands.evalIn meaning) (e.evalIn meaning) := by
  cases e with
  | constant | symbol => rfl
  | neg operand => exact (h operand (by simp [operands])).neg
  | binary operator left right =>
    exact (hmeaning.operator (h left (by simp [operands])).symm
      (h right (by simp [operands])).symm hfinite).symm
  | call function argument =>
    exact (hmeaning.call function (h argument (by simp [operands])).symm hfinite).symm

/-- A simplified denominator is above the guard if the denominator is. -/
theorem guard_lt_of_simplifyOperands {e : Expr}
    (h : ∀ operand ∈ e.operands,
      SameNumber (operand.simplify.evalIn meaning) (operand.evalIn meaning))
    (hguard : ∀ n d, e = div n d → denominatorGuard < d.evalIn meaning) {n d : Expr}
    (hdiv : e.simplifyOperands = div n d) : denominatorGuard < d.evalIn meaning := by
  cases e with
  | constant | symbol | neg | call => cases hdiv
  | binary operator left right =>
    cases hdiv
    have hright : denominatorGuard < right.evalIn meaning := hguard left right rfl
    rcases (h right (by simp [operands])).eq_or_isZero with hsame | ⟨_, hzero⟩
    · rwa [hsame]
    · exact absurd hzero (not_isZero_of_lt hright)

/-- Under the three conditions a simplified expression has the same value, up to the sign of a
zero. -/
theorem sameNumber_evalIn_simplify (hmeaning : meaning.IgnoresZeroSigns) {e : Expr}
    (hinteger : ∀ node ∈ e.subexpressions, node.simplify.IntegerIfConstant)
    (hfinite : ∀ node ∈ e.subexpressions, (node.evalIn meaning).isFinite = true)
    (hguard : ∀ numerator denominator, div numerator denominator ∈ e.subexpressions →
      denominatorGuard < denominator.evalIn meaning) :
    SameNumber (e.simplify.evalIn meaning) (e.evalIn meaning) := by
  induction e using operand_induction with
  | step e ih =>
    have hoperand {operand : Expr} (hmem : operand ∈ e.operands) :
        operand ∈ e.subexpressions :=
      mem_subexpressions_of_operand hmem operand.self_mem_subexpressions
    have hsame (operand : Expr) (hmem : operand ∈ e.operands) :
        SameNumber (operand.simplify.evalIn meaning) (operand.evalIn meaning) :=
      ih operand hmem (fun node hnode ↦ hinteger node (mem_subexpressions_of_operand hmem hnode))
        (fun node hnode ↦ hfinite node (mem_subexpressions_of_operand hmem hnode))
        fun n d hnode ↦ hguard n d (mem_subexpressions_of_operand hmem hnode)
    -- the conditions are about the operands themselves; the same values carry them over
    have htame : e.simplifyOperands.Tame meaning := by
      refine ⟨?_, ?_, ?_, ?_⟩
      · rw [operands_simplifyOperands]
        exact List.forall_mem_map.2 fun operand _ ↦ operand.normal_simplify
      · rw [operands_simplifyOperands]
        refine List.forall_mem_map.2 fun operand hmem ↦ ?_
        rw [(hsame operand hmem).isFinite_eq]
        exact hfinite operand (hoperand hmem)
      · rw [operands_simplifyOperands]
        exact List.forall_mem_map.2 fun operand hmem ↦ hinteger operand (hoperand hmem)
      · exact guard_lt_of_simplifyOperands hsame fun n d he ↦
          hguard n d (he ▸ e.self_mem_subexpressions)
    rw [simplify_eq_settle]
    exact (sameNumber_evalIn_settle (.inl htame)).trans
      (sameNumber_evalIn_simplifyOperands hmeaning hsame (hfinite e e.self_mem_subexpressions))

/-- Whatever the functions and the power stand for, if they ignore the signs of zeros,
simplification keeps the value of an expression where the three conditions hold. -/
theorem evalIn_simplify_beq (hmeaning : meaning.IgnoresZeroSigns) {e : Expr}
    (hinteger : ∀ node ∈ e.subexpressions, node.simplify.IntegerIfConstant)
    (hfinite : ∀ node ∈ e.subexpressions, (node.evalIn meaning).isFinite = true)
    (hguard : ∀ numerator denominator, div numerator denominator ∈ e.subexpressions →
      denominatorGuard < denominator.evalIn meaning) :
    (e.simplify.evalIn meaning == e.evalIn meaning) = true := by
  have hsame := sameNumber_evalIn_simplify hmeaning hinteger hfinite hguard
  refine beq_iff_sameNumber.2 ⟨hsame, ?_⟩
  rw [hsame.isNaN_eq]
  exact isNaN_eq_false (hfinite e e.self_mem_subexpressions)

/-- Simplification keeps the value of an expression at a point if every constant that a
subexpression simplifies to is an integer, every subexpression is finite there, and every
denominator is above the guard. -/
theorem eval_simplify_beq {e : Expr}
    (hinteger : ∀ node ∈ e.subexpressions, ∀ value places,
      node.simplify = constant value places → isInteger value = true)
    (hfinite : ∀ node ∈ e.subexpressions, (node.eval point).isFinite = true)
    (hguard : ∀ numerator denominator, div numerator denominator ∈ e.subexpressions →
      denominatorGuard < denominator.eval point) :
    (e.simplify.eval point == e.eval point) = true := by
  simp only [eval_eq_evalIn] at hfinite hguard ⊢
  exact evalIn_simplify_beq (Meaning.ignoresZeroSigns_standard point) hinteger hfinite hguard

/-- The expression `(1 * x + 0 * y) / (3 - 2) - -z`. -/
def manyRules : Expr :=
  sub (div (add (mul one (symbol .x)) (mul zero (symbol .y))) (sub (constant 3 0) (constant 2 0)))
    (neg (symbol .z))

/-- Seven rules are used on it, and the value at a point stays the same. -/
theorem eval_simplify_beq_many_rules :
    manyRules.simplify = add (symbol .x) (symbol .z) ∧
      (manyRules.simplify.eval ⟨2.5, 7, -0.5⟩ == manyRules.eval ⟨2.5, 7, -0.5⟩) = true := by
  refine ⟨by decide +kernel, eval_simplify_beq ?_ ?_ ?_⟩
  · have hintegers : ∀ node ∈ manyRules.subexpressions,
        (node.simplify.number?.all isInteger) = true := by decide +kernel
    intro node hmem value places hsimplify
    have hnumber := hintegers node hmem
    rw [hsimplify] at hnumber
    exact hnumber
  · decide +kernel
  · intro numerator denominator hmem
    obtain ⟨-, rfl⟩ : numerator = add (mul one (symbol .x)) (mul zero (symbol .y)) ∧
        denominator = sub (constant 3 0) (constant 2 0) := by
      simpa [manyRules, subexpressions, one, zero] using hmem
    decide +kernel

end Nabla.Expr
