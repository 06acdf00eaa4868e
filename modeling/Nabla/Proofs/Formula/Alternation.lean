import Nabla.Proofs.Formula.LeastSplit
import Nabla.Proofs.Formula.Sequence

/-!
# Assembling an alternation

Operands that alternate with operators are assembled bottom-up, from the operator that binds
tightest. The tree of an alternation is defined top-down: its root is the operator that binds
loosest, the leftmost of several, and what stands on either side of it is split in the same way.
`outcome_assemble_alternation` says that the two agree, whatever the precedences are and in
whatever order operands and operators are given.
-/

namespace Nabla.Formula

/-! ### Precedences -/

namespace Precedence

/-- Precedences are compared by depth, then by rank. -/
theorem le_iff {p q : Precedence} :
    p.le q = true ↔ p.depth < q.depth ∨ p.depth = q.depth ∧ p.rank.level ≤ q.rank.level := by
  simp [le]

/-- The order of precedences is transitive. -/
theorem le_trans {p q r : Precedence} (hpq : p.le q = true) (hqr : q.le r = true) :
    p.le r = true := by
  rw [le_iff] at *
  omega

/-- Of two precedences one is at most the other. -/
theorem le_of_not_le {p q : Precedence} (h : p.le q = false) : q.le p = true := by
  rw [← Bool.not_eq_true, le_iff] at h
  rw [le_iff]
  omega

end Precedence

/-! ### Alternations -/

/-- An operand with its index, and further ones with an operator in front of each. -/
structure Alternation where
  first : Nat × Expr
  rest : List (Occurrence × Nat × Expr)

namespace Alternation

/-- The operands of an alternation. -/
def operands (alternation : Alternation) : List (Nat × Expr) :=
  alternation.first :: alternation.rest.map Prod.snd

/-- The operators of an alternation. -/
def operators (alternation : Alternation) : List Occurrence := alternation.rest.map Prod.fst

/-- The operands and operators of an alternation in turn. -/
def elements (alternation : Alternation) : List Element :=
  .leaf alternation.first.1 alternation.first.2 ::
    alternation.rest.flatMap fun (occurrence, index, operand) ↦
      [.operator occurrence, .leaf index operand]

/-- Whether the first of two operators binds no tighter than the second. -/
def looser (link other : Occurrence × Nat × Expr) : Bool :=
  link.1.precedence.le other.1.precedence

/-- An alternation is split at the leftmost of its loosest operators. -/
theorem splitLeast_looser {links before after : List (Occurrence × Nat × Expr)}
    {loosest : Occurrence × Nat × Expr}
    (h : splitLeast looser links = some (before, loosest, after)) :
    links = before ++ loosest :: after ∧ (∀ link ∈ before, looser link loosest = false) ∧
      ∀ link ∈ after, looser loosest link = true :=
  @splitLeast_eq_some _ looser (fun _ _ _ ↦ Precedence.le_trans)
    (fun _ _ ↦ Precedence.le_of_not_le) _ _ _ _ h

/-- The tree of an alternation. Its root is the leftmost of the operators of lowest precedence,
between the trees of what stands before and after it. -/
def tree (alternation : Alternation) : Expr :=
  match _ : splitLeast looser alternation.rest with
  | none => alternation.first.2
  | some (before, (root, next), after) =>
      .binary root.operator (tree ⟨alternation.first, before⟩) (tree ⟨next, after⟩)
termination_by alternation.rest.length
decreasing_by
  all_goals
    have hrest := (splitLeast_looser ‹_›).1
    simp only [hrest, List.length_append, List.length_cons]
    omega

variable {alternation : Alternation}

/-- The tree of an operand alone is the operand. -/
theorem tree_eq_first (h : splitLeast looser alternation.rest = none) :
    alternation.tree = alternation.first.2 := by
  rw [tree]
  split
  · rfl
  · rename_i hsplit
    exact absurd (h.symm.trans hsplit) nofun

/-- The loosest operator is the root of the tree. -/
theorem tree_eq_binary {before after : List (Occurrence × Nat × Expr)} {root : Occurrence}
    {next : Nat × Expr}
    (h : splitLeast looser alternation.rest = some (before, (root, next), after)) :
    alternation.tree =
      .binary root.operator (tree ⟨alternation.first, before⟩) (tree ⟨next, after⟩) := by
  rw [tree]
  split
  · rename_i hsplit
    exact absurd (h.symm.trans hsplit) nofun
  · rename_i hsplit
    cases h.symm.trans hsplit
    rfl

/-! ### The elements of an alternation -/

/-- The leaves of an alternation are its operands. -/
theorem leaves_elements (alternation : Alternation) :
    leaves alternation.elements = alternation.operands := by
  obtain ⟨first, rest⟩ := alternation
  simp only [elements, operands, leaves_cons_leaf, List.cons.injEq, true_and]
  induction rest with
  | nil => rfl
  | cons link rest ih => simp [ih]

/-- The operators of an alternation. -/
theorem occurrences_elements (alternation : Alternation) :
    occurrences alternation.elements = alternation.operators := by
  obtain ⟨first, rest⟩ := alternation
  simp only [elements, operators, occurrences_cons_leaf]
  induction rest with
  | nil => rfl
  | cons link rest ih => simp [ih]

/-- The elements of an alternation around one of its operators. -/
theorem elements_split (first next : Nat × Expr) (before after : List (Occurrence × Nat × Expr))
    (root : Occurrence) :
    (Alternation.mk first (before ++ (root, next) :: after)).elements =
      (Alternation.mk first before).elements ++
        .operator root :: (Alternation.mk next after).elements := by
  simp [elements]

/-- An alternation stands for its tree. -/
theorem builds (hincreasing : Increasing alternation.elements) :
    Builds alternation.elements alternation.tree := by
  induction alternation using tree.induct with
  | case1 alternation hsplit =>
    obtain ⟨first, rest⟩ := alternation
    cases rest with
    | nil =>
      rw [tree_eq_first hsplit]
      exact .leaf first.1 first.2
    | cons link rest => exact absurd hsplit (splitLeast_cons_ne_none link rest)
  | case2 alternation before root next after hsplit ihbefore ihafter =>
    obtain ⟨hrest, hbefore, hafter⟩ := splitLeast_looser hsplit
    rw [tree_eq_binary hsplit]
    obtain ⟨first, rest⟩ := alternation
    obtain rfl : rest = _ := hrest
    rw [elements_split] at hincreasing ⊢
    obtain ⟨hfront, hback, -, hright⟩ := hincreasing.split
    refine .operator root (ihbefore hfront) (ihafter hback) fun other hother ↦
      Occurrence.comesFirst_iff.2 ?_
    -- an operator before the root binds tighter, one after it at least as tight
    rcases List.mem_append.1 hother with hother | hother
    · rw [occurrences_elements, operators] at hother
      obtain ⟨link, hlink, rfl⟩ := List.mem_map.1 hother
      have htighter : ¬ link.1.precedence.le root.precedence = true :=
        Bool.eq_false_iff.1 (hbefore link hlink)
      rw [Precedence.le_iff] at htighter
      omega
    · have hindex : root.index < other.index := hright _ (mem_of_mem_occurrences hother)
      rw [occurrences_elements, operators] at hother
      obtain ⟨link, hlink, rfl⟩ := List.mem_map.1 hother
      have hlooser : root.precedence.le link.1.precedence = true := hafter link hlink
      rw [Precedence.le_iff] at hlooser
      omega

end Alternation

/-- Operands and operators that alternate are assembled into the tree of the alternation, in
whatever order they are given. -/
theorem outcome_assemble_alternation (alternation : Alternation) (regions : Regions)
    (hincreasing : Increasing alternation.elements) {operands : List (Nat × Expr)}
    {operators : List Occurrence} (hoperands : operands.Perm alternation.operands)
    (hoperators : operators.Perm alternation.operators) :
    (assemble regions (.ofList operands) (constructionOrder operators)).outcome =
      .ok alternation.tree := by
  have hpool : OperandPool.ofList operands = (Gathered.ofElements alternation.elements).pool := by
    refine OperandPool.ext ?_
    rw [Gathered.entries_ofElements hincreasing, alternation.leaves_elements]
    refine OperandPool.entries_ofList_of_perm hoperands ?_
    rw [← alternation.leaves_elements]
    exact hincreasing.leaves
  have horder : constructionOrder operators =
      constructionOrder (Gathered.ofElements alternation.elements).operators := by
    rw [Gathered.operators_ofElements, alternation.occurrences_elements]
    refine constructionOrder_eq_of_perm hoperators ?_
    rw [← alternation.occurrences_elements]
    exact hincreasing.nodup_occurrences
  rw [Recorded.outcome_eq_ok_iff, result?_assemble, hpool, horder]
  exact (Alternation.builds hincreasing).tree? hincreasing

/-- Of the operators between four operands, one is in parentheses, and the leftmost of the other
two, which have equal precedence, is the root. -/
theorem outcome_assemble_equal_precedences :
    let alternation : Alternation :=
      ⟨(2, .symbol .x), [(⟨3, .sub, 1, .term⟩, 5, .symbol .y),
        (⟨7, .add, 0, .power⟩, 9, .symbol .z), (⟨10, .mul, 0, .power⟩, 12, .symbol .x)]⟩
    let regions : Regions := ⟨fun index ↦ ⟨index, index + 1⟩, ⟨0, 0⟩⟩
    Increasing alternation.elements ∧
      (assemble regions
        (.ofList [(9, .symbol .z), (2, .symbol .x), (12, .symbol .x), (5, .symbol .y)])
        (constructionOrder
          [⟨10, .mul, 0, .power⟩, ⟨3, .sub, 1, .term⟩, ⟨7, .add, 0, .power⟩])).outcome =
        .ok (.binary .add (.binary .sub (.symbol .x) (.symbol .y))
          (.binary .mul (.symbol .z) (.symbol .x))) := by
  intro alternation regions
  have hincreasing : Increasing alternation.elements := by
    unfold Increasing
    decide
  refine ⟨hincreasing, ?_⟩
  rw [outcome_assemble_alternation alternation regions hincreasing (by decide) (by decide)]
  simp [alternation, Alternation.tree, splitLeast, Alternation.looser, Precedence.le, Rank.level]

end Nabla.Formula
