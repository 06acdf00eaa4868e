import Mathlib.Data.List.Chain
import Nabla.Proofs.Formula.Completeness
import Nabla.Proofs.Formula.LayoutExistence

/-!
# What is read is a sentence

An assembly ends in one operand, so lexemes that are read have fewer operators than operands. When
no operand stands directly after another, there is no room for a second reading of these counts:
operators and operands alternate, in every group, and the lexemes are a sentence.

The reader itself does not look for an operator between two operands. It reads `x ( ) + y`, where
a group stands directly after a value, and `outcome_read_eq_ok_and_separated_iff` says that such
neighbours are all that tells the lexemes it reads from the sentences.
-/

namespace Nabla.Formula

/-! ### Neighbours -/

/-- Whether an operand can end with a lexeme of this kind. -/
def Lexeme.Kind.endsOperand (kind : Lexeme.Kind) : Bool := kind.isValue || kind == .closeParen

/-- Whether an operand can begin with a lexeme of this kind. -/
def Lexeme.Kind.beginsOperand (kind : Lexeme.Kind) : Bool := kind.beginsLeaf || kind == .openParen

/-- No operand begins directly after the end of another. -/
def Separated (kinds : List Lexeme.Kind) : Prop :=
  kinds.IsChain fun left right ↦ ¬(left.endsOperand = true ∧ right.beginsOperand = true)

instance (kinds : List Lexeme.Kind) : Decidable (Separated kinds) :=
  inferInstanceAs (Decidable (List.IsChain _ kinds))

namespace Separated

variable {kind : Lexeme.Kind} {front back kinds : List Lexeme.Kind}

/-- What ends no operand is separated from anything behind it. -/
theorem cons (hkind : kind.endsOperand = false) (h : Separated kinds) :
    Separated (kind :: kinds) := by
  refine List.isChain_cons.2 ⟨fun next _ hboth ↦ ?_, h⟩
  rw [hkind] at hboth
  exact Bool.noConfusion hboth.1

/-- What begins no operand is separated from anything in front of it. -/
theorem append (hkind : kind.beginsOperand = false) (hfront : Separated front)
    (hback : Separated (kind :: back)) : Separated (front ++ kind :: back) := by
  refine List.isChain_append.2 ⟨hfront, hback, fun last _ next hnext hboth ↦ ?_⟩
  obtain rfl : kind = next := by simpa using hnext
  rw [hkind] at hboth
  exact Bool.noConfusion hboth.2

/-- The rest of separated lexemes is separated. -/
theorem tail (h : Separated (kind :: kinds)) : Separated kinds := List.IsChain.of_cons h

/-- The front of separated lexemes is separated. -/
theorem of_append_left (h : Separated (front ++ back)) : Separated front :=
  (List.isChain_append.1 h).1

/-- The back of separated lexemes is separated. -/
theorem of_append_right (h : Separated (front ++ back)) : Separated back :=
  (List.isChain_append.1 h).2.1

/-- A group is separated if its contents are. -/
theorem group (h : Separated kinds) : Separated (.openParen :: (kinds ++ [.closeParen])) :=
  .cons rfl (.append rfl h (List.isChain_singleton _))

end Separated

mutual

/-- There is an operator between any two operands of a sentence. -/
theorem Sentence.separated_kinds (sentence : Sentence) : Separated sentence.kinds := by
  match sentence with
  | .single operand => exact operand.separated_kinds
  | .chained first op rest =>
    exact .append (by cases op <;> rfl) first.separated_kinds
      (.cons (by cases op <;> rfl) rest.separated_kinds)

/-- There is an operator between any two operands inside an operand. -/
theorem Operand.separated_kinds (operand : Operand) : Separated operand.kinds := by
  match operand with
  | .prefixed leaf => exact leaf.separated_kinds
  | .group contents => exact .group contents.separated_kinds

/-- There is an operator between any two operands inside a leaf. -/
theorem Prefixed.separated_kinds (leaf : Prefixed) : Separated leaf.kinds := by
  match leaf with
  | .value kind operand reads => exact List.isChain_singleton _
  | .owned opener contents =>
    exact .cons (by cases opener <;> rfl) (.group contents.separated_kinds)
  | .negated leaf => exact .cons rfl leaf.separated_kinds

end

/-! ### Operands and operators -/

namespace Layout

/-- The number of leaves of a layout, those of its groups included. -/
def leafCount : Layout → Nat
  | nil => 0
  | value _ _ _ _ rest => rest.leafCount + 1
  | owned _ _ _ rest => rest.leafCount + 1
  | operator _ rest => rest.leafCount
  | group contents rest => contents.leafCount + rest.leafCount

/-- The number of operators of a layout, those of its groups included. -/
def operatorCount : Layout → Nat
  | nil => 0
  | value _ _ _ _ rest => rest.operatorCount
  | owned _ _ _ rest => rest.operatorCount
  | operator _ rest => rest.operatorCount + 1
  | group contents rest => contents.operatorCount + rest.operatorCount

/-- A layout has as many elements as it counts. -/
theorem length_elements {layout : Layout} {depth index : Nat} {elements : List Element}
    (h : layout.elements? depth index = some elements) :
    (leaves elements).length = layout.leafCount ∧
      (occurrences elements).length = layout.operatorCount := by
  induction layout generalizing depth index elements with
  | nil =>
    cases h
    exact ⟨rfl, rfl⟩
  | value negations kind operand reads rest ih =>
    obtain ⟨others, hothers, rfl⟩ := Option.map_eq_some_iff.1 h
    obtain ⟨hleaves, hoccurrences⟩ := ih hothers
    exact ⟨congrArg (· + 1) hleaves, hoccurrences⟩
  | owned negations opener contents rest _ ih =>
    -- the contents end up in one leaf
    obtain ⟨inner, -, h⟩ := Option.bind_eq_some_iff.1 h
    obtain ⟨argument, -, h⟩ := Option.bind_eq_some_iff.1 h
    obtain ⟨others, hothers, rfl⟩ := Option.map_eq_some_iff.1 h
    obtain ⟨hleaves, hoccurrences⟩ := ih hothers
    exact ⟨congrArg (· + 1) hleaves, hoccurrences⟩
  | operator op rest ih =>
    obtain ⟨others, hothers, rfl⟩ := Option.map_eq_some_iff.1 h
    obtain ⟨hleaves, hoccurrences⟩ := ih hothers
    exact ⟨hleaves, congrArg (· + 1) hoccurrences⟩
  | group contents rest ihcontents ih =>
    obtain ⟨inner, hinner, h⟩ := Option.bind_eq_some_iff.1 h
    obtain ⟨others, hothers, rfl⟩ := Option.map_eq_some_iff.1 h
    obtain ⟨hinnerLeaves, hinnerOccurrences⟩ := ihcontents hinner
    obtain ⟨hleaves, hoccurrences⟩ := ih hothers
    rw [leaves_append, occurrences_append, List.length_append, List.length_append, hinnerLeaves,
      hinnerOccurrences, hleaves, hoccurrences]
    exact ⟨rfl, rfl⟩

end Layout

/-- Every operator that is built takes an operand from the pool. -/
theorem OperandPool.size_buildAll? {pool built : OperandPool} {order : List Occurrence}
    (h : pool.buildAll? order = some built) : built.size + order.length ≤ pool.size := by
  unfold buildAll? at h
  induction order generalizing pool with
  | nil =>
    cases h
    exact Nat.le_refl _
  | cons occurrence rest ih =>
    rw [List.foldlM_cons] at h
    obtain ⟨next, hnext, h⟩ := Option.bind_eq_some_iff.1 h
    have hsize := size_build? hnext
    have hrest := ih h
    rw [List.length_cons]
    omega

/-- A sequence that has a tree has fewer operators than leaves. -/
theorem length_occurrences_lt {elements : List Element} {e : Expr}
    (hincreasing : Increasing elements) (h : (Gathered.ofElements elements).tree? = some e) :
    (occurrences elements).length < (leaves elements).length := by
  obtain ⟨built, hbuilt, hsingle⟩ := Option.bind_eq_some_iff.1 h
  have hsize := OperandPool.size_buildAll? hbuilt
  have hone : built.size = 1 := by
    unfold OperandPool.single? at hsingle
    rw [OperandPool.size]
    split at hsingle
    · rename_i hentries
      rw [hentries]
      rfl
    · cases hsingle
  rw [hone, (constructionOrder_perm _).length_eq, Gathered.operators_ofElements, OperandPool.size,
    Gathered.entries_ofElements hincreasing] at hsize
  omega

/-- A layout that has a tree has fewer operators than leaves. -/
theorem Layout.operatorCount_lt {layout : Layout} {depth index : Nat} {elements : List Element}
    {e : Expr} (helements : layout.elements? depth index = some elements)
    (h : (Gathered.ofElements elements).tree? = some e) :
    layout.operatorCount < layout.leafCount := by
  obtain ⟨hleaves, hoccurrences⟩ := Layout.length_elements helements
  rw [← hleaves, ← hoccurrences]
  exact length_occurrences_lt (Layout.spread helements).increasing h

/-! ### From layouts to sentences -/

/-- A leaf with negations in front. -/
def Prefixed.negatedBy : Nat → Prefixed → Prefixed
  | 0, leaf => leaf
  | negations + 1, leaf => .negated (leaf.negatedBy negations)

/-- Negations in front of a leaf are signs in front of its lexemes. -/
theorem Prefixed.kinds_negatedBy (negations : Nat) (leaf : Prefixed) :
    (leaf.negatedBy negations).kinds = List.replicate negations .negative ++ leaf.kinds := by
  induction negations with
  | zero => rfl
  | succ negations ih => exact congrArg (.negative :: ·) ih

/-- What may follow an operand in a sentence: nothing, or an operator and a sentence. -/
def Continues (kinds : List Lexeme.Kind) : Prop :=
  kinds = [] ∨ ∃ (op : Operator) (sentence : Sentence), kinds = op.lexemeKind :: sentence.kinds

/-- An operand and what continues a sentence make a sentence. -/
theorem Operand.exists_sentence (operand : Operand) {kinds : List Lexeme.Kind}
    (h : Continues kinds) : ∃ sentence : Sentence, sentence.kinds = operand.kinds ++ kinds := by
  rcases h with rfl | ⟨op, rest, rfl⟩
  · exact ⟨.single operand, (List.append_nil _).symm⟩
  · exact ⟨.chained operand op rest, rfl⟩

/-- What the counts of a separated layout say about it, where an operand is expected and where one
has just ended. -/
structure Layout.Alternates (layout : Layout) : Prop where
  expecting : Separated layout.kinds → layout.leafCount ≤ layout.operatorCount + 1 ∧
    (layout.leafCount = layout.operatorCount + 1 →
      ∃ sentence : Sentence, sentence.kinds = layout.kinds)
  after : ∀ last : Lexeme.Kind, last.endsOperand = true → Separated (last :: layout.kinds) →
    layout.leafCount ≤ layout.operatorCount ∧
      (layout.leafCount = layout.operatorCount → Continues layout.kinds)

/-- An operand does not come after another one. -/
theorem Separated.not_beginsOperand {last next : Lexeme.Kind} {kinds : List Lexeme.Kind}
    (h : Separated (last :: next :: kinds)) (hlast : last.endsOperand = true) :
    next.beginsOperand = false := by
  have hboth := (List.isChain_cons_cons.1 h).1
  rw [hlast] at hboth
  simpa using hboth

/-- A value ends an operand. -/
theorem Lexeme.Kind.endsOperand_of_value? {kind : Lexeme.Kind} {operand : Expr}
    (h : kind.value? = some operand) : kind.endsOperand = true := by
  rw [endsOperand, isValue_of_value? h]
  rfl

/-- A layout that begins an operand does not come after another one. -/
theorem Layout.Alternates.of_operand {layout : Layout}
    (hbegins : ∃ next kinds, layout.kinds = next :: kinds ∧ next.beginsOperand = true)
    (expecting : Separated layout.kinds → layout.leafCount ≤ layout.operatorCount + 1 ∧
      (layout.leafCount = layout.operatorCount + 1 →
        ∃ sentence : Sentence, sentence.kinds = layout.kinds)) : layout.Alternates := by
  refine ⟨expecting, fun last hlast hseparated ↦ ?_⟩
  obtain ⟨next, kinds, hkinds, hnext⟩ := hbegins
  rw [hkinds] at hseparated
  rw [hseparated.not_beginsOperand hlast] at hnext
  exact Bool.noConfusion hnext

/-- Negations in front of a leaf begin an operand. -/
theorem exists_beginsOperand (negations : Nat) {kind : Lexeme.Kind} (kinds : List Lexeme.Kind)
    (h : kind.beginsLeaf = true) :
    ∃ next others, List.replicate negations .negative ++ kind :: kinds = next :: others ∧
      next.beginsOperand = true := by
  cases negations with
  | zero => exact ⟨kind, kinds, rfl, by rw [Lexeme.Kind.beginsOperand, h]; rfl⟩
  | succ negations => exact ⟨.negative, _, rfl, rfl⟩

/-- The contents of leaves have trees, so the counts decide whether operands and operators
alternate. -/
theorem Layout.alternates {layout : Layout} {depth index : Nat} {elements : List Element}
    (h : layout.elements? depth index = some elements) : layout.Alternates := by
  induction layout generalizing depth index elements with
  | nil => exact ⟨fun _ ↦ ⟨Nat.zero_le _, fun h ↦ nomatch h⟩, fun _ _ _ ↦
      ⟨Nat.le_refl _, fun _ ↦ .inl rfl⟩⟩
  | operator op rest ih =>
    obtain ⟨others, hothers, rfl⟩ := Option.map_eq_some_iff.1 h
    have hrest := (ih hothers).expecting
    refine ⟨fun hseparated ↦ ?_, fun last _ hseparated ↦ ?_⟩
    · -- an operator where an operand is expected leaves more operators than there can be
      have hcount := (hrest hseparated.tail).1
      simp only [leafCount, operatorCount]
      omega
    · obtain ⟨hcount, hsentence⟩ := hrest hseparated.tail.tail
      refine ⟨hcount, fun heq ↦ ?_⟩
      obtain ⟨sentence, hkinds⟩ := hsentence heq
      exact .inr ⟨op, sentence, by rw [hkinds, kinds]⟩
  | value negations kind operand reads rest ih =>
    obtain ⟨others, hothers, rfl⟩ := Option.map_eq_some_iff.1 h
    refine .of_operand (exists_beginsOperand negations _
      (Lexeme.Kind.beginsLeaf_of_value? reads).1) fun hseparated ↦ ?_
    obtain ⟨hcount, hcontinues⟩ := (ih hothers).after kind
      (Lexeme.Kind.endsOperand_of_value? reads) hseparated.of_append_right
    refine ⟨Nat.succ_le_succ hcount, fun heq ↦ ?_⟩
    obtain ⟨sentence, hsentence⟩ := Operand.exists_sentence
      (.prefixed (.negatedBy negations (.value kind operand reads)))
      (hcontinues (Nat.succ.inj heq))
    refine ⟨sentence, ?_⟩
    rw [hsentence, Operand.kinds, Prefixed.kinds_negatedBy, List.append_assoc]
    rfl
  | owned negations opener contents rest ihcontents ih =>
    obtain ⟨inner, hinner, h⟩ := Option.bind_eq_some_iff.1 h
    obtain ⟨argument, hargument, h⟩ := Option.bind_eq_some_iff.1 h
    obtain ⟨others, hothers, rfl⟩ := Option.map_eq_some_iff.1 h
    refine .of_operand (exists_beginsOperand negations _ opener.beginsLeaf_kind)
      fun hseparated ↦ ?_
    have hgroup := hseparated.of_append_right.tail.tail
    -- the contents have a tree, so they are a sentence whatever the counts outside are
    obtain ⟨hcount, hsentence⟩ := (ihcontents hinner).expecting hgroup.of_append_left
    obtain ⟨body, hbody⟩ := hsentence (by
      have := operatorCount_lt hinner hargument
      omega)
    obtain ⟨hcount, hcontinues⟩ := (ih hothers).after .closeParen rfl hgroup.of_append_right
    refine ⟨Nat.succ_le_succ hcount, fun heq ↦ ?_⟩
    obtain ⟨sentence, hsentence⟩ := Operand.exists_sentence
      (.prefixed (.negatedBy negations (.owned opener body))) (hcontinues (Nat.succ.inj heq))
    refine ⟨sentence, ?_⟩
    rw [hsentence, Operand.kinds, Prefixed.kinds_negatedBy, Prefixed.kinds, hbody, kinds]
    simp
  | group contents rest ihcontents ih =>
    obtain ⟨inner, hinner, h⟩ := Option.bind_eq_some_iff.1 h
    obtain ⟨others, hothers, rfl⟩ := Option.map_eq_some_iff.1 h
    refine .of_operand ⟨.openParen, _, rfl, rfl⟩ fun hseparated ↦ ?_
    obtain ⟨hcontents, hsentence⟩ :=
      (ihcontents hinner).expecting hseparated.tail.of_append_left
    obtain ⟨hrest, hcontinues⟩ :=
      (ih hothers).after .closeParen rfl hseparated.tail.of_append_right
    simp only [leafCount, operatorCount]
    refine ⟨by omega, fun heq ↦ ?_⟩
    obtain ⟨body, hbody⟩ := hsentence (by omega)
    obtain ⟨sentence, hsentence⟩ := Operand.exists_sentence (.group body) (hcontinues (by omega))
    refine ⟨sentence, ?_⟩
    rw [hsentence, Operand.kinds, hbody, kinds]
    simp

/-- Lexemes are read with no operand directly after another exactly if they are a sentence, and then
as its tree. -/
theorem outcome_read_eq_ok_and_separated_iff (lexemes : List Lexeme) (length : Nat) (e : Expr) :
    (Source.read ⟨lexemes, length⟩).outcome = .ok e ∧ Separated (lexemes.map Lexeme.kind) ↔
      ∃ sentence : Sentence, sentence.kinds = lexemes.map Lexeme.kind ∧ sentence.tree = e := by
  constructor
  · rintro ⟨hread, hseparated⟩
    rw [Recorded.outcome_eq_ok_iff] at hread
    obtain ⟨layout, hlayout⟩ := exists_layout_of_read hread
    have htree := hread
    rw [layout.result?_read hlayout] at htree
    obtain ⟨elements, helements, htree⟩ := Option.bind_eq_some_iff.1 htree
    rw [hlayout] at hseparated
    obtain ⟨hcount, hsentence⟩ := (Layout.alternates helements).expecting hseparated
    have hlt := Layout.operatorCount_lt helements htree
    obtain ⟨sentence, hkinds⟩ := hsentence (by omega)
    refine ⟨sentence, by rw [hkinds, hlayout], ?_⟩
    rw [sentence.result?_read (by rw [hkinds, hlayout])] at hread
    exact Option.some.inj hread
  · rintro ⟨sentence, hkinds, rfl⟩
    refine ⟨Recorded.outcome_eq_ok_iff.2 (sentence.result?_read hkinds.symm length), ?_⟩
    rw [← hkinds]
    exact sentence.separated_kinds

/-- The lexemes of `x ( ) + y` are read although they are no sentence. -/
theorem outcome_read_empty_group :
    let lexemes : List Lexeme :=
      [.symbol .x, .openParen, .closeParen, .plus, .symbol .y].map (⟨·, 0, ⟨0, 0⟩, false⟩)
    (Source.read ⟨lexemes, 8⟩).outcome = .ok (.binary .add (.symbol .x) (.symbol .y)) ∧
      ¬∃ sentence : Sentence, sentence.kinds = lexemes.map Lexeme.kind := by
  let layout : Layout := .value 0 (.symbol .x) (.symbol .x) rfl
    (.group .nil (.operator .add (.value 0 (.symbol .y) (.symbol .y) rfl .nil)))
  refine ⟨Recorded.outcome_eq_ok_iff.2 ?_, ?_⟩
  · rw [layout.result?_read rfl]
    rfl
  · rintro ⟨sentence, hkinds⟩
    have hseparated := sentence.separated_kinds
    rw [hkinds] at hseparated
    exact absurd hseparated (by decide)

end Nabla.Formula
