import Nabla.Proofs.Formula.Grammar

/-!
# Every sentence is read

The reader has no groups of its own: it sorts the operators of all groups by depth. What makes it
agree with the grammar is `Flattens`: the operators of a chain have one depth, those inside its
operands a greater one, and so the last operator in construction order is the one that the chain is
split at. `outcome_read_sentence` says that every sentence is read, and as its tree.
-/

namespace Nabla.Formula

/-! ### From chains to sequences -/

/-- The operators of a sequence are inside more parentheses than the given number. -/
def Deeper (depth : Nat) (elements : List Element) : Prop :=
  ∀ occurrence ∈ occurrences elements, depth < occurrence.precedence.depth

/-- A sequence is a chain at the given depth: its operators stand between sequences that stand for
its operands and have deeper operators only. -/
inductive Flattens (depth : Nat) : Chain → List Element → Prop where
  | single {operand : Expr} {elements : List Element} :
      Builds elements operand → Deeper depth elements → Flattens depth ⟨operand, []⟩ elements
  | chained {operand next : Expr} {links : List (Operator × Expr)} {elements others : List Element}
      (op : Operator) (index : Nat) :
      Builds elements operand → Deeper depth elements → Flattens depth ⟨next, links⟩ others →
      Flattens depth ⟨operand, (op, next) :: links⟩
        (elements ++ .operator (.ofDepth index op depth) :: others)

namespace Flattens

variable {depth : Nat}

/-- The operators of a chain have its depth or stand inside its operands. -/
theorem occurrence {chain : Chain} {elements : List Element} (h : Flattens depth chain elements)
    {occurrence : Occurrence} (hmem : occurrence ∈ occurrences elements) :
    depth < occurrence.precedence.depth ∨
      occurrence.precedence.depth = depth ∧
        ∃ link ∈ chain.rest, occurrence.precedence.rank = link.1.rank := by
  induction h with
  | single _ hdeeper => exact .inl (hdeeper occurrence hmem)
  | chained op index _ hdeeper _ ih =>
    rw [occurrences_append, List.mem_append, occurrences_cons_operator, List.mem_cons] at hmem
    rcases hmem with hmem | rfl | hmem
    · exact .inl (hdeeper occurrence hmem)
    · exact .inr ⟨rfl, _, List.mem_cons_self, rfl⟩
    · rcases ih hmem with hdepth | ⟨hdepth, link, hlink, hrank⟩
      · exact .inl hdepth
      · exact .inr ⟨hdepth, link, List.mem_cons_of_mem _ hlink, hrank⟩

/-- A chain is flattened around each of its operators. -/
theorem split {first next : Expr} {before after : List (Operator × Expr)} {op : Operator}
    {elements : List Element} (h : Flattens depth ⟨first, before ++ (op, next) :: after⟩ elements) :
    ∃ front back index, elements = front ++ .operator (.ofDepth index op depth) :: back ∧
      Flattens depth ⟨first, before⟩ front ∧ Flattens depth ⟨next, after⟩ back := by
  induction before generalizing first elements with
  | nil =>
    cases h with
    | chained op index hbuilds hdeeper hrest =>
      exact ⟨_, _, index, rfl, .single hbuilds hdeeper, hrest⟩
  | cons link before ih =>
    cases h with
    | chained op index hbuilds hdeeper hrest =>
      obtain ⟨front, back, place, rfl, hfront, hback⟩ := ih hrest
      exact ⟨_, back, place, by simp, .chained op index hbuilds hdeeper hfront, hback⟩

/-- A flattened chain stands for the tree of the chain. -/
theorem builds {chain : Chain} {elements : List Element} (h : Flattens depth chain elements)
    (hincreasing : Increasing elements) : Builds elements chain.tree := by
  induction chain using Chain.tree.induct generalizing elements with
  | case1 chain hsplit =>
    cases h with
    | single hbuilds _ => rwa [Chain.tree_eq_first hsplit]
    | chained op index _ _ _ => exact absurd hsplit (splitLoosest_cons_ne_none _ _)
  | case2 chain before op next after hsplit ihbefore ihafter =>
    have htree := Chain.tree_eq_binary hsplit
    obtain ⟨hrest, hbefore, hafter⟩ := splitLoosest_eq_some hsplit
    obtain ⟨first, rest⟩ := chain
    obtain rfl : rest = _ := hrest
    obtain ⟨front, back, index, rfl, hfront, hback⟩ := h.split
    obtain ⟨hfrontIncreasing, hbackIncreasing, -, hright⟩ := hincreasing.split
    rw [htree]
    refine .operator (.ofDepth index op depth) (ihbefore hfront hfrontIncreasing)
      (ihafter hback hbackIncreasing) fun other hother ↦ Occurrence.comesFirst_iff.2 ?_
    -- an operator inside an operand is deeper; one of the chain is tighter or stands to the right
    rcases List.mem_append.1 hother with hother | hother
    · rcases hfront.occurrence hother with hdepth | ⟨hdepth, link, hlink, hrank⟩
      · exact .inl hdepth
      · exact .inr ⟨hdepth.symm, .inl (hrank ▸ hbefore link hlink)⟩
    · rcases hback.occurrence hother with hdepth | ⟨hdepth, link, hlink, hrank⟩
      · exact .inl hdepth
      · have hlevel := hafter link hlink
        rw [← hrank] at hlevel
        have hindex := hright _ (mem_of_mem_occurrences hother)
        refine .inr ⟨hdepth.symm, (Nat.lt_or_eq_of_le hlevel).imp id fun heq ↦ ⟨heq, ?_⟩⟩
        exact Nat.le_of_lt hindex

/-- The operators of a chain are deeper than any smaller depth. -/
theorem deeper {chain : Chain} {elements : List Element}
    (h : Flattens (depth + 1) chain elements) : Deeper depth elements := by
  intro occurrence hmem
  rcases h.occurrence hmem with hdepth | ⟨hdepth, -⟩ <;> omega

end Flattens

/-! ### From sentences to layouts -/

mutual

/-- The layout of a sentence with another one after it. -/
def Sentence.layout : Sentence → Layout → Layout
  | .single operand, rest => operand.layout rest
  | .chained first op others, rest => first.layout (.operator op (others.layout rest))

/-- The layout of an operand with another one after it. -/
def Operand.layout : Operand → Layout → Layout
  | .prefixed leaf, rest => leaf.layout 0 rest
  | .group contents, rest => .group (contents.layout .nil) rest

/-- The layout of a leaf with negations in front and another layout after it. -/
def Prefixed.layout : Prefixed → Nat → Layout → Layout
  | .value kind operand reads, negations, rest => .value negations kind operand reads rest
  | .owned opener contents, negations, rest => .owned negations opener (contents.layout .nil) rest
  | .negated leaf, negations, rest => leaf.layout (negations + 1) rest

end

mutual

/-- The layout of a sentence has its kinds. -/
theorem Sentence.kinds_layout (sentence : Sentence) (rest : Layout) :
    (sentence.layout rest).kinds = sentence.kinds ++ rest.kinds := by
  match sentence with
  | .single operand => exact operand.kinds_layout rest
  | .chained first op others =>
    rw [Sentence.layout, first.kinds_layout, Layout.kinds, others.kinds_layout, Sentence.kinds,
      List.append_assoc, List.cons_append]

/-- The layout of an operand has its kinds. -/
theorem Operand.kinds_layout (operand : Operand) (rest : Layout) :
    (operand.layout rest).kinds = operand.kinds ++ rest.kinds := by
  match operand with
  | .prefixed leaf => exact leaf.kinds_layout 0 rest
  | .group contents => simp [Operand.layout, Operand.kinds, Layout.kinds, contents.kinds_layout]

/-- The layout of a leaf has its kinds, with the signs in front. -/
theorem Prefixed.kinds_layout (leaf : Prefixed) (negations : Nat) (rest : Layout) :
    (leaf.layout negations rest).kinds =
      List.replicate negations .negative ++ (leaf.kinds ++ rest.kinds) := by
  match leaf with
  | .value kind operand reads => simp [Prefixed.layout, Prefixed.kinds, Layout.kinds]
  | .owned opener contents =>
    simp [Prefixed.layout, Prefixed.kinds, Layout.kinds, contents.kinds_layout]
  | .negated leaf =>
    rw [Prefixed.layout, leaf.kinds_layout (negations + 1), Prefixed.kinds, List.replicate_succ',
      List.append_assoc]
    rfl

end

/-- A sentence alone takes as many lexemes as it has kinds. -/
theorem Sentence.width_layout (sentence : Sentence) :
    (sentence.layout .nil).width = sentence.kinds.length := by
  rw [Layout.width, sentence.kinds_layout, Layout.kinds, List.append_nil]

mutual

/-- The elements of a sentence are its chain, and its group stands for its tree. -/
theorem Sentence.elements?_layout (sentence : Sentence) (depth index : Nat) (rest : Layout) :
    ∃ elements, Flattens depth sentence.chain elements ∧
      (sentence.layout rest).elements? depth index =
        (rest.elements? depth (index + sentence.kinds.length)).map (elements ++ ·) := by
  match sentence with
  | .single operand =>
    obtain ⟨elements, hbuilds, hdeeper, helements⟩ := operand.elements?_layout depth index rest
    exact ⟨elements, .single hbuilds hdeeper, helements⟩
  | .chained first op others =>
    obtain ⟨elements, hbuilds, hdeeper, helements⟩ :=
      first.elements?_layout depth index (.operator op (others.layout rest))
    obtain ⟨following, hflattens, hfollowing⟩ :=
      others.elements?_layout depth (index + first.kinds.length + 1) rest
    refine ⟨_, .chained op (index + first.kinds.length) hbuilds hdeeper hflattens, ?_⟩
    have hwidth : index + (Sentence.chained first op others).kinds.length =
        index + first.kinds.length + 1 + others.kinds.length := by
      simp [Sentence.kinds]
      omega
    rw [Sentence.layout, helements, Layout.elements?, hfollowing, hwidth]
    cases rest.elements? depth (index + first.kinds.length + 1 + others.kinds.length) <;> simp

/-- The elements of an operand stand for its tree and have deeper operators only. -/
theorem Operand.elements?_layout (operand : Operand) (depth index : Nat) (rest : Layout) :
    ∃ elements, Builds elements operand.tree ∧ Deeper depth elements ∧
      (operand.layout rest).elements? depth index =
        (rest.elements? depth (index + operand.kinds.length)).map (elements ++ ·) := by
  match operand with
  | .prefixed leaf =>
    have hdeeper : Deeper depth [.leaf index leaf.tree] := by
      intro occurrence hmem
      cases hmem
    exact ⟨[.leaf index leaf.tree], .leaf index leaf.tree, hdeeper,
      leaf.elements?_layout 0 depth index rest⟩
  | .group contents =>
    obtain ⟨elements, hflattens, helements⟩ :=
      contents.elements?_layout (depth + 1) (index + 1) .nil
    rw [Layout.elements?, Option.map_some, List.append_nil] at helements
    refine ⟨elements, hflattens.builds (Layout.spread helements).increasing, hflattens.deeper, ?_⟩
    have hwidth : index + (Operand.group contents).kinds.length =
        index + 2 + contents.kinds.length := by
      simp [Operand.kinds]
      omega
    rw [Operand.layout, Layout.elements?, helements, Option.bind_some, contents.width_layout,
      hwidth]

/-- The only element of a leaf is its tree, with the negations in front of it. -/
theorem Prefixed.elements?_layout (leaf : Prefixed) (negations depth index : Nat) (rest : Layout) :
    (leaf.layout negations rest).elements? depth index =
      (rest.elements? depth (index + negations + leaf.kinds.length)).map
        (.leaf index (negate negations leaf.tree) :: ·) := by
  match leaf with
  | .value kind operand reads => rfl
  | .owned opener contents =>
    obtain ⟨elements, hflattens, helements⟩ :=
      contents.elements?_layout 0 (index + negations + 2) .nil
    rw [Layout.elements?, Option.map_some, List.append_nil] at helements
    have htree := (hflattens.builds (Layout.spread helements).increasing).tree?
      (Layout.spread helements).increasing
    have hwidth : index + negations + (Prefixed.owned opener contents).kinds.length =
        index + negations + 3 + contents.kinds.length := by
      simp [Prefixed.kinds]
      omega
    rw [Prefixed.layout, Layout.elements?, helements, Option.bind_some, htree, Option.bind_some,
      contents.width_layout, hwidth, Prefixed.tree]
  | .negated leaf =>
    have hwidth : index + (negations + 1) + leaf.kinds.length =
        index + negations + (Prefixed.negated leaf).kinds.length := by
      simp [Prefixed.kinds]
      omega
    rw [Prefixed.layout, leaf.elements?_layout (negations + 1), hwidth, negate_add, Prefixed.tree]
    rfl

end

/-- The lexemes of a sentence are read as its tree. -/
theorem Sentence.result?_read (sentence : Sentence) {lexemes : List Lexeme}
    (h : lexemes.map Lexeme.kind = sentence.kinds) (length : Nat) :
    (Source.read ⟨lexemes, length⟩).result? = some sentence.tree := by
  have hkinds : lexemes.map Lexeme.kind = (sentence.layout .nil).kinds := by
    rw [h, sentence.kinds_layout, Layout.kinds, List.append_nil]
  obtain ⟨elements, hflattens, helements⟩ := sentence.elements?_layout 0 0 .nil
  rw [Layout.elements?, Option.map_some, List.append_nil] at helements
  have hincreasing := (Layout.spread helements).increasing
  rw [Layout.result?_read _ hkinds, helements]
  exact (hflattens.builds hincreasing).tree? hincreasing

/-- Every sentence of the grammar is read, and as the tree it stands for. -/
theorem outcome_read_sentence (sentence : Sentence) (lexemes : List Lexeme) (length : Nat)
    (h : lexemes.map Lexeme.kind = sentence.kinds) :
    (Source.read ⟨lexemes, length⟩).outcome = .ok sentence.tree :=
  Recorded.outcome_eq_ok_iff.2 (sentence.result?_read h length)

/-- The lexemes of `-(x) ^ y - z - x` are read: the power is tighter than the subtractions, and the
first subtraction takes all the rest. -/
theorem outcome_read_negation_power_differences :
    (Source.read
        ⟨[.negative, .openParen, .symbol .x, .closeParen, .power, .symbol .y, .minus, .symbol .z,
          .minus, .symbol .x].map (⟨·, 0, ⟨0, 0⟩, false⟩), 16⟩).outcome =
      .ok (.binary .sub (.binary .pow (.neg (.symbol .x)) (.symbol .y))
        (.binary .sub (.symbol .z) (.symbol .x))) := by
  let letter (name : Symbol) : Prefixed := .value (.symbol name) (.symbol name) rfl
  let sentence : Sentence :=
    .chained (.prefixed (.owned .negation (.single (.prefixed (letter .x))))) .pow
      (.chained (.prefixed (letter .y)) .sub
        (.chained (.prefixed (letter .z)) .sub (.single (.prefixed (letter .x)))))
  rw [outcome_read_sentence sentence _ _ rfl]
  simp [sentence, letter, Sentence.tree, Sentence.chain, Operand.tree, Prefixed.tree, Chain.tree,
    splitLoosest, Rank.level, Operator.rank, Opener.apply]

end Nabla.Formula
