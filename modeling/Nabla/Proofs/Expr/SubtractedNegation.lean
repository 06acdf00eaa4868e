import Nabla.Proofs.Expr.IdentityLaws

/-!
# Subtracted negations

Subtracting a negation is simplified like adding what is negated (`simplify_sub_neg_equals_iff`).
But the rule for it sees the negation only after it is simplified, and a negation need not stay one:
of a constant it becomes a constant, and of a negation it becomes what that negates. A sum has no
rule for a negation on its right. So `x - -(-y)` ends as `x - y`, while `x + -y` stays as it is.
-/

namespace Nabla.Binary32

open Float.Model Float.Model.UnpackedFloat

/-! ### Negated numbers -/

/-- Negation changes the sign of a finite number and nothing else. -/
theorem parts_neg {x : Float32} {negative : Bool} {significand : Nat} {exponent : Int}
    (h : parts x = .finite negative significand exponent) :
    parts (-x) = .finite (!negative) significand exponent := by
  have hsign (sign : Sign) : isNegative (-sign) = !isNegative sign := by
    cases sign <;> rfl
  unfold parts at h ⊢
  rw [unpack_neg]
  split at h <;> cases h
  all_goals
    rename_i hunpack
    rw [hunpack]
    exact congrArg (Parts.finite · _ _) (hsign _)

/-- Cutting off the fraction commutes with negation. -/
theorem truncate?_neg {x : Float32} {n : Int} (h : truncate? x = some n) :
    truncate? (-x) = some (-n) := by
  unfold truncate? at h
  split at h
  · rename_i negative significand exponent hparts
    cases h
    have hsigned : signed (!negative) significand = -signed negative significand := by
      cases negative <;> simp [signed]
    simp only [truncate?, parts_neg hparts, hsigned, Int.neg_mul, Int.neg_tdiv]
    split <;> rfl
  · cases h

end Nabla.Binary32

namespace Nabla.Expr

open Binary32

variable {left right operand : Expr}

/-! ### Constants -/

/-- What is taken for zero is a constant. -/
theorem isConstant_of_isZero {e : Expr} (h : e.isZero = true) : e.isConstant = true := by
  cases e with
  | constant value places => rfl
  | symbol | neg | binary | call => cases h

/-- A constant is taken for zero if it is cut off to zero. -/
theorem isZero_constant_iff {value : Float32} {places : Nat} :
    (constant value places).isZero = true ↔ truncate? value = some 0 := by
  have hclamp (n : Int) : clampWord n = 0 ↔ n = 0 := by
    unfold clampWord
    have hpower : Int.pow 2 63 = 9223372036854775808 := by decide
    omega
  rw [isZero, integer?, beq_iff_eq, Option.map_eq_some_iff]
  constructor
  · rintro ⟨n, hn, hzero⟩
    rwa [(hclamp n).1 hzero] at hn
  · exact fun h ↦ ⟨0, h, rfl⟩

/-- The negation of a constant that is cut off to zero is cut off to zero. -/
theorem isZero_neg_constant {value : Float32} {places : Nat}
    (h : (constant value places).isZero = true) : (constant (-value) places).isZero = true :=
  isZero_constant_iff.2 (truncate?_neg (isZero_constant_iff.1 h))

/-- Only an expression without not-a-number equals itself. -/
theorem equals_self_iff {e : Expr} : e.equals e = true ↔ e.Numeric := by
  refine ⟨fun h ↦ ?_, Numeric.equals_self⟩
  induction e with
  | constant value places =>
    rw [equals, Bool.and_eq_true] at h
    exact numeric_constant (beq_iff_sameNumber.1 h.1).2 places
  | symbol name =>
    intro value places hmem
    cases List.mem_singleton.1 hmem
  | neg operand ih => exact (ih h).neg
  | binary operator left right ihleft ihright =>
    rw [equals, Bool.and_eq_true, Bool.and_eq_true] at h
    intro value places hmem
    rcases List.mem_cons.1 hmem with heq | hmem
    · cases heq
    · rcases List.mem_append.1 hmem with hleft | hright
      · exact ihleft h.1.2 value places hleft
      · exact ihright h.2 value places hright
  | call function argument ih =>
    rw [equals, Bool.and_eq_true] at h
    intro value places hmem
    rcases List.mem_cons.1 hmem with heq | hmem
    · cases heq
    · exact ih h.2 value places hmem

/-! ### Rules for sums and differences -/

/-- Nothing is folded unless both operands are constants. -/
theorem foldConstants_eq_none (operator : Operator)
    (h : left.isConstant = false ∨ right.isConstant = false) :
    Rule.foldConstants (binary operator left right) = none := by
  unfold Rule.foldConstants
  split
  · rename_i heq
    cases heq
    simp [isConstant] at h
  · rfl

/-- Where no constants are folded, only the rules for sums and differences apply to these. -/
theorem all_eq_sums {operator : Operator} (hoperator : operator = .add ∨ operator = .sub)
    (h : left.isConstant = false ∨ right.isConstant = false) :
    Rule.all (binary operator left right) = Rule.sums (binary operator left right) := by
  have hnegations : Rule.negations (binary operator left right) = none := rfl
  have hothers : Rule.products (binary operator left right) = none ∧
      Rule.quotients (binary operator left right) = none := by
    rcases hoperator with rfl | rfl <;> exact ⟨rfl, rfl⟩
  rw [Rule.all, Rule.firstOf]
  simp only [List.findSome?_cons, foldConstants_eq_none operator h, hnegations, hothers.1,
    hothers.2, List.findSome?_nil]
  cases Rule.sums (binary operator left right) <;> rfl

/-- The rule for a sum that is not folded. -/
theorem all_add (left right : Expr)
    (h : left.isConstant = false ∨ right.isConstant = false) :
    Rule.all (add left right) =
      if left.isZero then some (right, .addZero)
      else if right.isZero then some (left, .addZero) else none := by
  rw [all_eq_sums (.inl rfl) h]
  simp only [Rule.sums, Rule.firstOf, List.findSome?_cons, Rule.addZero, Rule.zeroMinus,
    Rule.subtractZero, Rule.subtractNegation, List.findSome?_nil]
  cases left.isZero <;> cases right.isZero <;> rfl

/-- The rule for a difference that is not folded. -/
theorem all_sub (left right : Expr)
    (h : left.isConstant = false ∨ right.isConstant = false) :
    Rule.all (sub left right) =
      if left.isZero then some (neg right, .zeroMinus)
      else if right.isZero then some (left, .subtractZero)
      else Rule.subtractNegation (sub left right) := by
  rw [all_eq_sums (.inr rfl) h]
  simp only [Rule.sums, Rule.firstOf, List.findSome?_cons, Rule.addZero, Rule.zeroMinus,
    Rule.subtractZero, List.findSome?_nil]
  cases left.isZero <;> cases right.isZero <;> try rfl
  cases Rule.subtractNegation (sub left right) <;> rfl

/-! ### Settled sums and differences -/

/-- A sum of constants settles to a constant. -/
theorem settle_add_constants (x y : Float32) (places otherPlaces : Nat) :
    (settle (add (constant x places) (constant y otherPlaces))).1 =
      constant (x + y) (max places otherPlaces) := by
  have hrule : Rule.all (add (constant x places) (constant y otherPlaces)) =
      some (constant (x + y) (max places otherPlaces), .foldConstants) := rfl
  rw [settle_of_some hrule, settle_of_none rfl]

/-- To subtract a negated constant from a constant is to add it. -/
theorem settle_sub_constants (x y : Float32) (places otherPlaces : Nat) :
    (settle (sub (constant x places) (constant (-y) otherPlaces))).1 =
      (settle (add (constant x places) (constant y otherPlaces))).1 := by
  have hrule : Rule.all (sub (constant x places) (constant (-y) otherPlaces)) =
      some (constant (x - -y) (max places otherPlaces), .foldConstants) := rfl
  rw [settle_of_some hrule, settle_of_none rfl, settle_add_constants, Binary32.sub_neg]

/-- A constant that is cut off to zero is dropped, whether it is added or its negation is
subtracted. -/
theorem settle_sub_neg_zero {value : Float32} {places : Nat}
    (hconstant : left.isConstant = false) (hzero : (constant value places).isZero = true) :
    (settle (sub left (constant (-value) places))).1 =
      (settle (add left (constant value places))).1 := by
  have hnonzero : ¬ left.isZero = true := fun h ↦
    Bool.false_ne_true (hconstant.symm.trans (isConstant_of_isZero h))
  have hsub := all_sub left (constant (-value) places) (.inl hconstant)
  have hadd := all_add left (constant value places) (.inl hconstant)
  rw [if_neg hnonzero, if_pos (isZero_neg_constant hzero)] at hsub
  rw [if_neg hnonzero, if_pos hzero] at hadd
  rw [settle_of_some hsub, settle_of_some hadd]

/-- The rule for subtracted negations, where a negation stands on the right. -/
theorem settle_sub_neg (hright : right.Normal) (hconstant : right.isConstant = false) :
    (settle (sub left (neg right))).1 = (settle (add left right)).1 := by
  have hsub := all_sub left (neg right) (.inr rfl)
  have hadd := all_add left right (.inr hconstant)
  by_cases hzero : left.isZero = true
  · rw [if_pos hzero] at hsub hadd
    rw [settle_of_some hsub, settle_of_some hadd, settle_neg_neg hright,
      settle_of_none (normal_iff.1 hright).1]
  · have hnegation : ¬ (neg right).isZero = true := Bool.false_ne_true
    rw [if_neg hzero, if_neg hnegation] at hsub
    rw [settle_of_some hsub]

/-- What is negated in a simplified negation is no constant. -/
theorem isConstant_of_normal_neg (h : (neg operand).Normal) : operand.isConstant = false := by
  have hroot := (normal_iff.1 h).1
  cases operand with
  | constant => cases hroot
  | symbol | neg | binary | call => rfl

/-- A simplified negation is added to zero as what it negates is subtracted from zero. -/
theorem settle_sub_of_isZero (h : (neg operand).Normal) (hzero : left.isZero = true) :
    (settle (sub left operand)).1 = (settle (add left (neg operand))).1 := by
  have hsub := all_sub left operand (.inr (isConstant_of_normal_neg h))
  have hadd := all_add left (neg operand) (.inr rfl)
  rw [if_pos hzero] at hsub hadd
  rw [settle_of_some hsub, settle_of_some hadd]

/-- Nothing is simplified where a simplified negation is added, or what it negates is subtracted. -/
theorem settle_of_not_isZero (h : (neg operand).Normal) (hzero : ¬ left.isZero = true) :
    settle (sub left operand) = (sub left operand, []) ∧
      settle (add left (neg operand)) = (add left (neg operand), []) := by
  have hconstant := isConstant_of_normal_neg h
  have hoperand : ¬ operand.isZero = true := fun hoperand ↦
    Bool.false_ne_true (hconstant.symm.trans (isConstant_of_isZero hoperand))
  have hnegation : ¬ (neg operand).isZero = true := Bool.false_ne_true
  have hrule : Rule.subtractNegation (sub left operand) = none := by
    have hroot := (normal_iff.1 h).1
    cases operand with
    | neg => cases hroot
    | constant | symbol | binary | call => rfl
  constructor
  · refine settle_of_none ?_
    rw [all_sub _ _ (.inr hconstant), if_neg hzero, if_neg hoperand, hrule]
  · refine settle_of_none ?_
    rw [all_add _ _ (.inr rfl), if_neg hzero, if_neg hnegation]

/-- The sum of simplified expressions brings in not-a-number only where it is folded to it. -/
theorem numeric_settle_add_iff (hleft : left.Numeric) (hright : right.Numeric)
    (hleftNormal : left.Normal) (hrightNormal : right.Normal) :
    (settle (add left right)).1.Numeric ↔
      ∀ x places y otherPlaces, left = constant x places → right = constant y otherPlaces →
        (x + y).isNaN = false := by
  -- only two constants are folded; any other sum is kept or one of its operands
  by_cases hconstants : left.isConstant = false ∨ right.isConstant = false
  · refine iff_of_true ?_ fun x places y otherPlaces hx hy ↦ ?_
    · have hadd := all_add left right hconstants
      by_cases hzero : left.isZero = true
      · rw [if_pos hzero] at hadd
        rwa [settle_of_some hadd, settle_of_none (normal_iff.1 hrightNormal).1]
      · rw [if_neg hzero] at hadd
        by_cases hother : right.isZero = true
        · rw [if_pos hother] at hadd
          rwa [settle_of_some hadd, settle_of_none (normal_iff.1 hleftNormal).1]
        · rw [if_neg hother] at hadd
          rw [settle_of_none hadd, ← equals_self_iff, equals, beq_self_eq_true,
            hleft.equals_self, hright.equals_self]
          rfl
    · rw [hx, hy] at hconstants
      simp [isConstant] at hconstants
  · obtain ⟨hx, hy⟩ := not_or.1 hconstants
    cases left <;> simp only [isConstant, not_true] at hx
    cases right <;> simp only [isConstant, not_true] at hy
    rename_i x places y otherPlaces
    rw [settle_add_constants]
    constructor
    · rintro h _ _ _ _ ⟨⟩ ⟨⟩
      exact h _ _ (self_mem_subexpressions _)
    · exact fun h ↦ numeric_constant (h x places y otherPlaces rfl rfl) _

/-! ### Simplification -/

/-- If the simplified forms of two expressions hold no not-a-number, and the second is no constant
unless it is cut off to zero or the first is a constant too, then subtracting the negation of the
second is simplified to an expression that equals the simplified sum exactly if the first is cut off
to zero or the second is no negation, and no two constants are folded to not-a-number. Where the
second is a negation, what it negates is subtracted. -/
theorem simplify_sub_neg_equals_iff {a b : Expr} (ha : a.simplify.Numeric)
    (hb : b.simplify.Numeric)
    (hconstant : b.simplify.isConstant = true →
      a.simplify.isConstant = true ∨ b.simplify.isZero = true) :
    ((sub a (neg b)).simplify.equals (add a b).simplify = true ↔
      (a.simplify.isZero = true ∨ ∀ operand, b.simplify ≠ neg operand) ∧
        ∀ x places y otherPlaces, a.simplify = constant x places →
          b.simplify = constant y otherPlaces → (x + y).isNaN = false) ∧
      ∀ operand, b.simplify = neg operand →
        (sub a (neg b)).simplify = (sub a operand).simplify := by
  have hleft : a.simplify.Normal := a.normal_simplify
  have hright : b.simplify.Normal := b.normal_simplify
  have hneg : (neg b).simplify = (settle (neg b.simplify)).1 := simplify_eq_settle (neg b)
  have hsub : (sub a (neg b)).simplify = (settle (sub a.simplify (neg b).simplify)).1 :=
    simplify_eq_settle _
  have hadd : (add a b).simplify = (settle (add a.simplify b.simplify)).1 := simplify_eq_settle _
  have hsubOperand (operand : Expr) :
      (sub a operand).simplify = (settle (sub a.simplify operand.simplify)).1 :=
    simplify_eq_settle _
  have hnumeric := numeric_settle_add_iff ha hb hleft hright
  rw [hsub, hneg, hadd, ← hnumeric]
  generalize a.simplify = left at *
  generalize b.simplify = right at *
  -- where both sides are one expression, it equals itself if it holds no not-a-number
  have hsame {result : Expr} (h : result = (settle (add left right)).1)
      (hcondition : left.isZero = true ∨ ∀ operand, right ≠ neg operand) :
      result.equals (settle (add left right)).1 = true ↔
        (left.isZero = true ∨ ∀ operand, right ≠ neg operand) ∧
          (settle (add left right)).1.Numeric := by
    rw [h, equals_self_iff]
    exact (and_iff_right hcondition).symm
  cases right with
  | constant y places =>
    rw [settle_neg_constant]
    refine ⟨hsame ?_ (.inr fun _ ↦ Expr.noConfusion), fun _ h ↦ nomatch h⟩
    cases hleftConstant : left.isConstant with
    | true =>
      cases left <;> cases hleftConstant
      exact settle_sub_constants _ _ _ _
    | false =>
      refine settle_sub_neg_zero hleftConstant ((hconstant rfl).resolve_left ?_)
      rw [hleftConstant]
      exact Bool.false_ne_true
  | neg operand =>
    have hoperand : operand.Normal := hright.operand (List.mem_singleton_self operand)
    rw [settle_neg_neg hoperand]
    refine ⟨?_, ?_⟩
    · by_cases hzero : left.isZero = true
      · exact hsame (settle_sub_of_isZero hright hzero) (.inl hzero)
      · obtain ⟨hsub, hadd⟩ := settle_of_not_isZero hright hzero
        rw [hsub, hadd]
        refine iff_of_false Bool.false_ne_true ?_
        rintro ⟨hcondition, -⟩
        exact hcondition.resolve_left hzero operand rfl
    · rintro _ ⟨⟩
      rw [hsubOperand, show operand.simplify = operand from
        congrArg Prod.fst hoperand.simplifyWithSteps_eq_self]
  | symbol | binary | call =>
    rw [settle_of_none (e := neg _) rfl]
    exact ⟨hsame (settle_sub_neg hright rfl) (.inr fun _ ↦ Expr.noConfusion), fun _ h ↦ nomatch h⟩

/-- The simplified forms are `0`, from `0 * x`, and `-y`, and both sides simplify to `-y`. -/
theorem simplify_sub_neg_equals_zero :
    let a : Expr := mul zero (symbol .x)
    let b : Expr := mul one (neg (symbol .y))
    a.simplify.Numeric ∧ b.simplify.Numeric ∧ b.simplify = neg (symbol .y) ∧
      (sub a (neg b)).simplify.equals (add a b).simplify = true := by
  intro a b
  have ha : a.simplify = zero := by decide +kernel
  have hb : b.simplify = neg (symbol .y) := by decide +kernel
  have hzero : a.simplify.isZero = true := by decide +kernel
  have haNumeric : a.simplify.Numeric := equals_self_iff.1 (by decide +kernel)
  have hbNumeric : b.simplify.Numeric := equals_self_iff.1 (by decide +kernel)
  refine ⟨haNumeric, hbNumeric, hb, (simplify_sub_neg_equals_iff haNumeric hbNumeric ?_).1.2
    ⟨.inl hzero, ?_⟩⟩
  · rw [hb]
    exact nofun
  · rw [hb]
    exact nofun

/-- The difference of `x` and `-(-y)` is simplified to `x - y`, and the sum `x + -y` stays as it is,
so these are not equal. -/
theorem simplify_sub_neg_neg :
    (symbol .x).simplify.Numeric ∧ (neg (symbol .y)).simplify.Numeric ∧
      (sub (symbol .x) (neg (neg (symbol .y)))).simplify = sub (symbol .x) (symbol .y) ∧
      (add (symbol .x) (neg (symbol .y))).simplify = add (symbol .x) (neg (symbol .y)) ∧
      ¬ (sub (symbol .x) (neg (neg (symbol .y)))).simplify.equals
        (add (symbol .x) (neg (symbol .y))).simplify = true :=
  ⟨equals_self_iff.1 (by decide +kernel), equals_self_iff.1 (by decide +kernel),
    by decide +kernel, by decide +kernel, by decide +kernel⟩

end Nabla.Expr
