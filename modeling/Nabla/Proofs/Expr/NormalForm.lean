import Nabla.Expr.Simplification
import Nabla.Proofs.Expr.Rewriting

/-!
# Normal forms

An expression is normal if no rule applies to any of its nodes. Simplification applies rules to a
node only after its operands are simplified, and never goes back to the operands. This is enough:
whatever a step makes the new root, the operands below it are normal again
(`Rewrites.forall_normal`). So a simplified expression is normal, and to simplify it again changes
nothing.

An operand that equals its simplified form is kept. As every step removes a node, this happens only
where no step was taken, and then the two are the same (`keepEqual_simplify`).
-/

namespace Nabla.Expr

/-! ### Nodes -/

/-- The operands of the root of an expression. -/
def operands : Expr → List Expr
  | constant .. => []
  | symbol _ => []
  | neg operand => [operand]
  | binary _ left right => [left, right]
  | call _ argument => [argument]

/-- The expressions at the nodes of an expression, its own root first. -/
def subexpressions : Expr → List Expr
  | constant value places => [constant value places]
  | symbol name => [symbol name]
  | neg operand => neg operand :: operand.subexpressions
  | binary operator left right =>
      binary operator left right :: (left.subexpressions ++ right.subexpressions)
  | call function argument => call function argument :: argument.subexpressions

/-- A subexpression is the expression itself or one of an operand. -/
theorem mem_subexpressions_iff {node e : Expr} :
    node ∈ e.subexpressions ↔ node = e ∨ ∃ operand ∈ e.operands, node ∈ operand.subexpressions := by
  cases e <;> simp [subexpressions, operands]

/-- An expression is one of its subexpressions. -/
theorem self_mem_subexpressions (e : Expr) : e ∈ e.subexpressions :=
  mem_subexpressions_iff.2 (.inl rfl)

/-- A subexpression of an operand is one of the expression. -/
theorem mem_subexpressions_of_operand {operand e node : Expr} (h : operand ∈ e.operands)
    (hnode : node ∈ operand.subexpressions) : node ∈ e.subexpressions :=
  mem_subexpressions_iff.2 (.inr ⟨operand, h, hnode⟩)

/-- What holds of an expression whenever it holds of its operands holds of every expression. -/
theorem operand_induction {motive : Expr → Prop}
    (step : ∀ e, (∀ operand ∈ e.operands, motive operand) → motive e) (e : Expr) : motive e := by
  induction e with
  | constant value places => exact step _ (by simp [operands])
  | symbol name => exact step _ (by simp [operands])
  | neg operand ih => exact step _ (by simpa [operands] using ih)
  | binary operator left right ihleft ihright =>
    exact step _ (by simpa [operands] using ⟨ihleft, ihright⟩)
  | call function argument ih => exact step _ (by simpa [operands] using ih)

/-- A node of a subexpression is a node of the expression. -/
theorem mem_subexpressions_trans {e node inner : Expr} (hnode : node ∈ e.subexpressions)
    (hinner : inner ∈ node.subexpressions) : inner ∈ e.subexpressions := by
  induction e using operand_induction with
  | step e ih =>
    rcases mem_subexpressions_iff.1 hnode with rfl | ⟨operand, hmem, hnode⟩
    · exact hinner
    · exact mem_subexpressions_of_operand hmem (ih operand hmem hnode)

/-! ### Normal expressions -/

/-- No rule applies to any node. -/
def Normal (e : Expr) : Prop := ∀ node ∈ e.subexpressions, Rule.all node = none

/-- An expression is in normal form if no rule applies to it and its operands are in normal form. -/
theorem normal_iff {e : Expr} :
    e.Normal ↔ Rule.all e = none ∧ ∀ operand ∈ e.operands, operand.Normal := by
  constructor
  · intro h
    exact ⟨h e e.self_mem_subexpressions,
      fun operand hmem node hnode ↦ h node (mem_subexpressions_of_operand hmem hnode)⟩
  · rintro ⟨hroot, hoperands⟩ node hnode
    rcases mem_subexpressions_iff.1 hnode with rfl | ⟨operand, hmem, hnode⟩
    · exact hroot
    · exact hoperands operand hmem node hnode

/-- The operands of an expression in normal form are in normal form. -/
theorem Normal.operand {e operand : Expr} (h : e.Normal) (hmem : operand ∈ e.operands) :
    operand.Normal :=
  (normal_iff.1 h).2 operand hmem

/-- A step leaves normal operands below the new root if those below the old root were normal. -/
theorem Rewrites.forall_normal {e result : Expr} (hstep : Rewrites e result)
    (h : ∀ operand ∈ e.operands, operand.Normal) :
    ∀ operand ∈ result.operands, operand.Normal := by
  have hoperand {operand : Expr} (hmem : operand ∈ e.operands) :
      ∀ inner ∈ operand.operands, inner.Normal := (normal_iff.1 (h operand hmem)).2
  cases hstep with
  | fold | negateConstant | zeroMul | mulZero | zeroDiv => simp [zero, operands]
  | doubleNegation =>
    have hinner : result.Normal :=
      hoperand (List.mem_singleton_self (neg result)) result (List.mem_singleton_self result)
    exact (normal_iff.1 hinner).2
  | zeroAdd | oneMul => exact hoperand (by simp [operands])
  | addZero | subZero | mulOne | divOne => exact hoperand (by simp [operands])
  | zeroSub right hzero =>
    intro operand hmem
    obtain rfl := List.mem_singleton.1 hmem
    exact h operand (by simp [operands])
  | subNeg left operand =>
    have hleft : left.Normal := h left (by simp [operands])
    have hright : operand.Normal :=
      @hoperand (neg operand) (by simp [operands]) operand (by simp [operands])
    simpa [operands] using ⟨hleft, hright⟩

/-! ### Settling a node -/

/-- Where no rule applies, nothing is settled. -/
theorem settle_of_none {e : Expr} (h : Rule.all e = none) : settle e = (e, []) := by
  rw [settle]
  split
  · rfl
  · rename_i hsome
    cases h.symm.trans hsome

/-- Where a rule applies, its result is settled further. -/
theorem settle_of_some {e result : Expr} {step : Step} (h : Rule.all e = some (result, step)) :
    settle e = ((settle result).1, step :: (settle result).2) := by
  rw [settle]
  split
  · rename_i hnone
    cases h.symm.trans hnone
  · rename_i hsome
    cases h.symm.trans hsome
    rfl

/-- A node with normal operands settles to a normal expression. -/
theorem normal_settle {e : Expr} (h : ∀ operand ∈ e.operands, operand.Normal) :
    (settle e).1.Normal := by
  induction e using settle.induct with
  | case1 e hnone =>
    rw [settle_of_none hnone]
    exact normal_iff.2 ⟨hnone, h⟩
  | case2 e result step hsome settled steps hsettle ih =>
    rw [settle_of_some hsome]
    exact ih ((Rule.rewrites_of_all hsome).forall_normal h)

/-- A node settles to itself without a step, or to an expression with fewer nodes. -/
theorem settle_eq_or_nodeCount_lt (e : Expr) :
    settle e = (e, []) ∨ (settle e).1.nodeCount < e.nodeCount := by
  induction e using settle.induct with
  | case1 e hnone => exact .inl (settle_of_none hnone)
  | case2 e result step hsome settled steps hsettle ih =>
    have hlt := Rule.nodeCount_lt hsome
    rw [settle_of_some hsome]
    rcases ih with hself | hless
    · exact .inr (by rwa [hself])
    · exact .inr (Nat.lt_trans hless hlt)

/-! ### Sharing -/

/-- Equal expressions have the same number of nodes. -/
theorem nodeCount_eq_of_equals {e other : Expr} (h : e.equals other = true) :
    e.nodeCount = other.nodeCount := by
  induction e generalizing other with
  | constant | symbol =>
    cases other <;> simp_all [equals, nodeCount]
  | neg operand ih =>
    cases other <;> simp_all [equals, nodeCount]
    exact ih h
  | binary operator left right ihleft ihright =>
    cases other <;> simp_all [equals, nodeCount]
    rw [ihleft h.1.2, ihright h.2]
  | call function argument ih =>
    cases other <;> simp_all [equals, nodeCount]
    exact ih h.2

/-- Between an operand and an expression that is the operand or smaller, the second is chosen. -/
theorem keepEqual_eq {operand simplified : Expr}
    (h : simplified = operand ∨ simplified.nodeCount < operand.nodeCount) :
    keepEqual operand simplified = simplified := by
  unfold keepEqual
  split
  · rename_i hequals
    rcases h with rfl | hless
    · rfl
    · exact absurd (nodeCount_eq_of_equals hequals) (Nat.ne_of_lt hless)
  · rfl

/-- An expression with its operands simplified. -/
def simplifyOperands : Expr → Expr
  | constant value places => constant value places
  | symbol name => symbol name
  | neg operand => neg operand.simplify
  | binary operator left right => binary operator left.simplify right.simplify
  | call function argument => call function argument.simplify

/-- The operands are the simplified ones. -/
theorem operands_simplifyOperands (e : Expr) :
    e.simplifyOperands.operands = e.operands.map simplify := by
  cases e <;> rfl

/-- Where simplified operands are taken, an expression is simplified by settling it over them. -/
theorem simplifyUsing_of_choice {choose : Choice} {e : Expr}
    (hoperands : ∀ operand ∈ e.operands, operand.simplifyUsing choose = operand.simplifyWithSteps)
    (hchoice : ∀ operand ∈ e.operands, choose operand operand.simplify = operand.simplify) :
    e.simplifyUsing choose = ((settle e.simplifyOperands).1,
      (e.operands.flatMap fun operand ↦ operand.simplifyWithSteps.2) ++
        (settle e.simplifyOperands).2) := by
  have hleaf {e : Expr} (h : ∀ result, ¬ Rewrites e result) : settle e = (e, []) :=
    settle_of_none (Option.eq_none_iff_forall_ne_some.2 fun (result, step) hsome ↦
      h result (Rule.rewrites_of_all hsome))
  cases e with
  | constant value places =>
    rw [simplifyOperands, hleaf (by rintro result ⟨⟩)]
    rfl
  | symbol name =>
    rw [simplifyOperands, hleaf (by rintro result ⟨⟩)]
    rfl
  | neg operand | call function operand =>
    simp only [simplifyOperands, operands, List.flatMap_cons, List.flatMap_nil, List.append_nil]
    rw [← hchoice operand (by simp [operands]), simplifyUsing,
      hoperands operand (by simp [operands])]
    rfl
  | binary operator left right =>
    simp only [simplifyOperands, operands, List.flatMap_cons, List.flatMap_nil, List.append_nil]
    rw [← hchoice left (by simp [operands]), ← hchoice right (by simp [operands]), simplifyUsing,
      hoperands left (by simp [operands]), hoperands right (by simp [operands])]
    rfl

/-- Simplified operands are the same, or there are fewer nodes in all. -/
theorem simplifyOperands_eq_or_nodeCount_lt {e : Expr}
    (h : ∀ operand ∈ e.operands,
      operand.simplify = operand ∨ operand.simplify.nodeCount < operand.nodeCount) :
    e.simplifyOperands = e ∨ e.simplifyOperands.nodeCount < e.nodeCount := by
  cases e with
  | constant | symbol => exact .inl rfl
  | neg operand =>
    rcases h operand (by simp [operands]) with hsame | hless
    · exact .inl (congrArg neg hsame)
    · refine .inr ?_
      simp only [simplifyOperands, nodeCount]
      omega
  | binary operator left right =>
    rcases h left (by simp [operands]) with hleft | hleft <;>
      rcases h right (by simp [operands]) with hright | hright
    · exact .inl (by rw [simplifyOperands, hleft, hright])
    all_goals
      refine .inr ?_
      simp only [simplifyOperands, nodeCount, *]
      omega
  | call function argument =>
    rcases h argument (by simp [operands]) with hsame | hless
    · exact .inl (congrArg (call function) hsame)
    · refine .inr ?_
      simp only [simplifyOperands, nodeCount]
      omega

/-- Simplification changes nothing or removes a node. -/
theorem simplify_eq_or_nodeCount_lt (e : Expr) :
    e.simplify = e ∨ e.simplify.nodeCount < e.nodeCount := by
  induction e using operand_induction with
  | step e ih =>
    rw [simplify, simplifyWithSteps,
      simplifyUsing_of_choice (fun _ _ ↦ rfl) fun operand hmem ↦ keepEqual_eq (ih operand hmem)]
    rcases settle_eq_or_nodeCount_lt e.simplifyOperands with hself | hless
    · rw [hself]
      exact simplifyOperands_eq_or_nodeCount_lt ih
    · rcases simplifyOperands_eq_or_nodeCount_lt ih with hsame | hfewer
      · exact .inr (by rwa [hsame] at hless ⊢)
      · exact .inr (Nat.lt_trans hless hfewer)

/-- An operand is kept only where its simplified form is the same. -/
theorem keepEqual_simplify (e : Expr) : keepEqual e e.simplify = e.simplify :=
  keepEqual_eq e.simplify_eq_or_nodeCount_lt

/-! ### Simplified expressions -/

/-- The steps of the operands come before those of the node. -/
theorem simplifyWithSteps_eq (e : Expr) :
    e.simplifyWithSteps = ((settle e.simplifyOperands).1,
      (e.operands.flatMap fun operand ↦ operand.simplifyWithSteps.2) ++
        (settle e.simplifyOperands).2) :=
  simplifyUsing_of_choice (fun _ _ ↦ rfl) fun operand _ ↦ operand.keepEqual_simplify

/-- An expression is simplified by settling it over its simplified operands. -/
theorem simplify_eq_settle (e : Expr) : e.simplify = (settle e.simplifyOperands).1 := by
  rw [simplify, simplifyWithSteps_eq]

/-- What is simplified is in normal form. -/
theorem normal_simplify (e : Expr) : e.simplify.Normal := by
  induction e using operand_induction with
  | step e ih =>
    rw [simplify_eq_settle]
    refine normal_settle fun operand hmem ↦ ?_
    rw [operands_simplifyOperands] at hmem
    obtain ⟨original, horiginal, rfl⟩ := List.mem_map.1 hmem
    exact ih original horiginal

/-- An expression whose operands are simplified already keeps them. -/
theorem simplifyOperands_eq_self {e : Expr}
    (h : ∀ operand ∈ e.operands, operand.simplify = operand) : e.simplifyOperands = e := by
  cases e <;> simp_all [simplifyOperands, operands]

/-- A normal expression is simplified without a step. -/
theorem Normal.simplifyWithSteps_eq_self {e : Expr} (h : e.Normal) :
    e.simplifyWithSteps = (e, []) := by
  induction e using operand_induction with
  | step e ih =>
    have hoperands (operand : Expr) (hmem : operand ∈ e.operands) :
        operand.simplifyWithSteps = (operand, []) := ih operand hmem (h.operand hmem)
    have hsame : e.simplifyOperands = e :=
      simplifyOperands_eq_self fun operand hmem ↦ congrArg Prod.fst (hoperands operand hmem)
    have hsteps : (e.operands.flatMap fun operand ↦ operand.simplifyWithSteps.2) = [] :=
      List.flatMap_eq_nil_iff.2 fun operand hmem ↦ by rw [hoperands operand hmem]
    rw [simplifyWithSteps_eq, hsame, hsteps, settle_of_none (normal_iff.1 h).1]
    rfl

/-- No rule applies to any node of a simplified expression, so to simplify it again takes no step
and gives the same expression. -/
theorem simplify_reaches_normal_form (e : Expr) :
    (∀ node ∈ e.simplify.subexpressions, Rule.all node = none) ∧
      e.simplify.simplifyWithSteps = (e.simplify, []) :=
  ⟨e.normal_simplify, e.normal_simplify.simplifyWithSteps_eq_self⟩

end Nabla.Expr
