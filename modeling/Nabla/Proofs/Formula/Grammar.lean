import Nabla.Proofs.Formula.LayoutReading
import Nabla.Proofs.Formula.LeastSplit

/-!
# The grammar of expressions

`Sentence` is the grammar of expressions over kinds of lexemes: operands with operators between
them, where an operand is a leaf or an expression in parentheses. `Sentence.tree` is the tree that a
sentence stands for: a chain of operands is split at the leftmost of its loosest operators, and both
sides are read in the same way.
-/

namespace Nabla.Formula

/-! ### Sentences -/

mutual

/-- Operands with operators between them. -/
inductive Sentence where
  | single (operand : Operand)
  | chained (first : Operand) (op : Operator) (rest : Sentence)

/-- A leaf, or a sentence in parentheses. -/
inductive Operand where
  | prefixed (leaf : Prefixed)
  | group (contents : Sentence)

/-- A value; a function name or a negation with a sentence in parentheses; or a negation with such a
leaf after it. -/
inductive Prefixed where
  | value (kind : Lexeme.Kind) (operand : Expr) (reads : kind.value? = some operand)
  | owned (opener : Opener) (contents : Sentence)
  | negated (leaf : Prefixed)

end

mutual

/-- The kinds of lexemes that a sentence is written with. -/
def Sentence.kinds : Sentence → List Lexeme.Kind
  | .single operand => operand.kinds
  | .chained first op rest => first.kinds ++ op.lexemeKind :: rest.kinds

/-- The kinds of lexemes that an operand is written with. -/
def Operand.kinds : Operand → List Lexeme.Kind
  | .prefixed leaf => leaf.kinds
  | .group contents => .openParen :: (contents.kinds ++ [.closeParen])

/-- The kinds of lexemes that a leaf is written with. -/
def Prefixed.kinds : Prefixed → List Lexeme.Kind
  | .value kind _ _ => [kind]
  | .owned opener contents => opener.kind :: .openParen :: (contents.kinds ++ [.closeParen])
  | .negated leaf => .negative :: leaf.kinds

end

/-! ### Chains -/

/-- A chain: its first operand, and every further one with the operator in front of it. -/
structure Chain where
  first : Expr
  rest : List (Operator × Expr)

/-- The leftmost of the loosest operators of a chain with the operand after it, and what stands
before and after them. -/
def splitLoosest : List (Operator × Expr) →
    Option (List (Operator × Expr) × (Operator × Expr) × List (Operator × Expr))
  | [] => none
  | link :: rest =>
      match splitLoosest rest with
      | none => some ([], link, [])
      | some (before, loosest, after) =>
          if loosest.1.rank.level < link.1.rank.level then some (link :: before, loosest, after)
          else some ([], link, rest)

/-- A chain is split at the leftmost of the operators of least rank. -/
theorem splitLoosest_eq_splitLeast (links : List (Operator × Expr)) :
    splitLoosest links =
      splitLeast (fun link other ↦ link.1.rank.level ≤ other.1.rank.level) links := by
  induction links with
  | nil => rfl
  | cons link rest ih =>
    rw [splitLoosest, splitLeast, ih]
    cases splitLeast (fun link other ↦ link.1.rank.level ≤ other.1.rank.level) rest with
    | none => rfl
    | some split => simp only [decide_eq_true_eq, ← Nat.not_lt, ite_not]

/-- A chain with an operator can be split. -/
theorem splitLoosest_cons_ne_none (link : Operator × Expr) (rest : List (Operator × Expr)) :
    splitLoosest (link :: rest) ≠ none := by
  rw [splitLoosest_eq_splitLeast]
  exact splitLeast_cons_ne_none link rest

/-- The operator a chain is split at is looser than those before it, and no tighter than those after
it. -/
theorem splitLoosest_eq_some {links before after : List (Operator × Expr)}
    {loosest : Operator × Expr} (h : splitLoosest links = some (before, loosest, after)) :
    links = before ++ loosest :: after ∧
      (∀ link ∈ before, loosest.1.rank.level < link.1.rank.level) ∧
      ∀ link ∈ after, loosest.1.rank.level ≤ link.1.rank.level := by
  rw [splitLoosest_eq_splitLeast] at h
  obtain ⟨hlinks, hbefore, hafter⟩ := splitLeast_eq_some
    (by simp only [decide_eq_true_eq]; omega)
    (by simp only [decide_eq_true_eq, decide_eq_false_iff_not]; omega) h
  exact ⟨hlinks, fun link hlink ↦ Nat.lt_of_not_le (of_decide_eq_false (hbefore link hlink)),
    fun link hlink ↦ of_decide_eq_true (hafter link hlink)⟩

/-- The tree of a chain: the leftmost of the loosest operators, applied to the trees of what stands
before and after it. -/
def Chain.tree (chain : Chain) : Expr :=
  match _ : splitLoosest chain.rest with
  | none => chain.first
  | some (before, (op, next), after) =>
      .binary op (Chain.tree ⟨chain.first, before⟩) (Chain.tree ⟨next, after⟩)
termination_by chain.rest.length
decreasing_by
  all_goals
    have hrest := (splitLoosest_eq_some ‹_›).1
    simp only [hrest, List.length_append, List.length_cons]
    omega

/-- The tree of a chain without operators is its operand. -/
theorem Chain.tree_eq_first {chain : Chain} (h : splitLoosest chain.rest = none) :
    chain.tree = chain.first := by
  rw [Chain.tree]
  split
  · rfl
  · rename_i hsplit
    exact absurd (h.symm.trans hsplit) nofun

/-- The operator that a chain is split at is the root of its tree. -/
theorem Chain.tree_eq_binary {chain : Chain} {before after : List (Operator × Expr)} {op : Operator}
    {next : Expr} (h : splitLoosest chain.rest = some (before, (op, next), after)) :
    chain.tree = .binary op (Chain.tree ⟨chain.first, before⟩) (Chain.tree ⟨next, after⟩) := by
  rw [Chain.tree]
  split
  · rename_i hsplit
    exact absurd (h.symm.trans hsplit) nofun
  · rename_i hsplit
    cases h.symm.trans hsplit
    rfl

mutual

/-- The operands of a sentence, read, with its operators between them. -/
def Sentence.chain : Sentence → Chain
  | .single operand => ⟨operand.tree, []⟩
  | .chained first op rest => ⟨first.tree, (op, rest.chain.first) :: rest.chain.rest⟩

/-- The tree of an operand. -/
def Operand.tree : Operand → Expr
  | .prefixed leaf => leaf.tree
  | .group contents => contents.chain.tree

/-- The tree of a leaf. -/
def Prefixed.tree : Prefixed → Expr
  | .value _ operand _ => operand
  | .owned opener contents => opener.apply contents.chain.tree
  | .negated leaf => .neg leaf.tree

end

/-- The tree of a sentence. -/
def Sentence.tree (sentence : Sentence) : Expr := sentence.chain.tree

end Nabla.Formula
