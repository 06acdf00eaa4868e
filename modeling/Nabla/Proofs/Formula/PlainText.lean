import Nabla.Expr.Evaluation
import Nabla.Expr.Markup
import Nabla.Formula.Reader
import Nabla.Proofs.Formula.Acceptance
import Nabla.Proofs.Formula.Readable
import Nabla.Proofs.Formula.Spelling

/-!
# Reading plain text back

The plain text of an expression that was read is a sentence again, so it is always read back.
`Expr.reread` is the expression that it is read as. It differs from the one that was written in two
ways. A negation stands directly in front of its operand, even of a power, where it is read as part
of the base: the text of `-(x^2)` is `-x^2`, which is the square of `-x`. And a constant is the
number nearest to its text.
-/

namespace Nabla

open Decimal (Literal Numeral)

/-! ### What plain text is read as -/

namespace Expr

/-- Whether an expression is a power. -/
def isPower : Expr → Bool
  | binary .pow _ _ => true
  | _ => false

/-- A negation in front of the text of an expression. The text of a power begins with its base. -/
def negateText : Expr → Expr
  | binary .pow base exponent => binary .pow (neg base) exponent
  | operand => neg operand

/-- The expression that the plain text of an expression is read as. -/
def reread : Expr → Expr
  | constant value places =>
      match Numeral.ofChars? (Decimal.fixedChars value places) with
      | some numeral => constant numeral.value numeral.places
      | none => constant value places
  | symbol name => symbol name
  | neg operand => operand.reread.negateText
  | binary operator left right => binary operator left.reread right.reread
  | call function argument => call function argument.reread

/-- No negation stands directly in front of a power, and every constant is the number nearest to its
text. -/
def ReadsBack : Expr → Prop
  | constant value places =>
      Numeral.ofChars? (Decimal.fixedChars value places) = some ⟨value, places⟩
  | symbol _ => True
  | neg operand => operand.isPower = false ∧ operand.ReadsBack
  | binary _ left right => left.ReadsBack ∧ right.ReadsBack
  | call _ argument => argument.ReadsBack

/-- All constants of an expression are finite. -/
def FiniteConstants : Expr → Prop
  | constant value _ =>
      ∃ negative significand exponent, Binary32.parts value = .finite negative significand exponent
  | symbol _ => True
  | neg operand => operand.FiniteConstants
  | binary _ left right => left.FiniteConstants ∧ right.FiniteConstants
  | call _ argument => argument.FiniteConstants

/-- In front of what is no power, a sign is read as the negation of all of it. -/
theorem negateText_of_isPower_eq_false {e : Expr} (h : e.isPower = false) :
    e.negateText = neg e := by
  unfold negateText
  split
  · cases h
  · rfl

/-- A sign is read as the negation of what follows only if that is no power. -/
theorem negateText_eq_neg_iff {e operand : Expr} :
    e.negateText = neg operand ↔ e.isPower = false ∧ e = operand := by
  constructor
  · intro h
    unfold negateText at h
    split at h
    · cases h
    · rename_i hpower
      cases h
      refine ⟨?_, rfl⟩
      unfold isPower
      split
      · exact absurd rfl (hpower _ _)
      · rfl
  · rintro ⟨hpower, rfl⟩
    exact negateText_of_isPower_eq_false hpower

/-- The text of a constant that was read is a literal. -/
theorem exists_literal {mode : Mode} {value : Float32} {places : Nat}
    (hreadable : (constant value places).Readable mode)
    (hfinite : (constant value places).FiniteConstants) :
    ∃ literal : Literal, literal.text = Decimal.fixedChars value places := by
  obtain ⟨negative, significand, exponent, hparts⟩ := hfinite
  obtain rfl := Binary32.negative_eq_false hreadable hparts
  exact Decimal.exists_literal_fixedChars hparts places

/-- An expression is reread as itself exactly if its text reads back. -/
theorem reread_eq_self_iff {mode : Mode} {e : Expr} (hreadable : e.Readable mode)
    (hfinite : e.FiniteConstants) : e.reread = e ↔ e.ReadsBack := by
  induction e with
  | constant value places =>
    obtain ⟨literal, hliteral⟩ := exists_literal hreadable hfinite
    unfold reread ReadsBack
    rw [← hliteral, literal.ofChars?_text]
    simp only
    constructor
    · intro h
      cases h
      rfl
    · intro h
      cases h
      rfl
  | symbol name => exact iff_of_true rfl trivial
  | neg operand ih =>
    specialize ih hreadable hfinite
    unfold reread ReadsBack
    -- a minus goes to the base of a power when it is read back
    rw [negateText_eq_neg_iff, ← ih]
    constructor
    · rintro ⟨hpower, heq⟩
      exact ⟨heq ▸ hpower, heq⟩
    · rintro ⟨hpower, heq⟩
      exact ⟨heq.symm ▸ hpower, heq⟩
  | binary operator left right ihleft ihright =>
    unfold reread ReadsBack
    rw [← ihleft hreadable.1 hfinite.1, ← ihright hreadable.2 hfinite.2]
    constructor
    · intro h
      injection h with _ hleft hright
      exact ⟨hleft, hright⟩
    · rintro ⟨hleft, hright⟩
      rw [hleft, hright]
  | call function argument ih =>
    unfold reread ReadsBack
    rw [← ih hreadable.2 hfinite]
    constructor
    · intro h
      injection h
    · intro h
      rw [h]

end Expr

end Nabla

namespace Nabla.Formula

open Decimal (Literal Numeral)

variable {mode : Mode}

/-! ### Texts that are spelled -/

/-- The pieces of a text and the kinds of their lexemes. The text is legible in front of anything
that does not begin with a literal, and it does not begin with a space. -/
structure Spells (pieces : List (Piece mode)) (text : List Char) (kinds : List Lexeme.Kind) :
    Prop where
  spell : spell pieces = text
  kinds : pieces.filterMap Piece.kind? = kinds
  legible : ∀ rest : List (Piece mode), Legible rest →
    (∀ literal, rest.head? ≠ some (.number literal)) → Legible (pieces ++ rest)
  begins : ∃ first others, pieces = first :: others ∧ first ≠ .space

/-- A text is spelled with pieces whose lexemes have the given kinds. -/
def Spelled (mode : Mode) (text : List Char) (kinds : List Lexeme.Kind) : Prop :=
  ∃ pieces : List (Piece mode), Spells pieces text kinds

namespace Spelled

variable {text other : List Char} {kinds others : List Lexeme.Kind}

/-- A symbol or a literal. -/
theorem leaf (piece : Piece mode) {kind : Lexeme.Kind} (hkind : piece.kind? = some kind)
    (hvalue : kind.isValue = true) : Spelled mode piece.text [kind] := by
  refine ⟨[piece], ?_, ?_, ?_, piece, [], rfl, ?_⟩
  · show piece.text ++ [] = _
    rw [List.append_nil]
  · rw [List.filterMap_cons_some hkind]
    rfl
  · intro rest hrest hhead
    refine ⟨?_, hrest⟩
    cases piece with
    | space => trivial
    | symbol name allowed => trivial
    | number literal => exact hhead
    | mark written =>
      cases hkind
      cases written with
      | operator op => cases op <;> cases hvalue
      | _ => cases hvalue
  · rintro rfl
    cases hkind

/-- A mark in front of a text. -/
theorem mark (written : Mark) (hmark : ∀ op, written ≠ .operator op)
    (h : Spelled mode text kinds) :
    Spelled mode (written.first :: (written.rest ++ text)) (written.kind :: kinds) := by
  obtain ⟨pieces, hspells⟩ := h
  obtain ⟨first, others, rfl, hfirst⟩ := hspells.begins
  refine ⟨.mark written :: first :: others, ?_, ?_, ?_, _, _, rfl, nofun⟩
  · rw [spell_cons, hspells.spell]
    rfl
  · rw [filterMap_kind?_mark, hspells.kinds]
  · intro rest hrest hhead
    refine ⟨?_, hspells.legible rest hrest hhead⟩
    cases written with
    | negative => exact fun heq ↦ hfirst (Option.some.inj heq)
    | operator op => exact absurd rfl (hmark op)
    | _ => trivial

/-- A text with a closing parenthesis after it. -/
theorem closed (h : Spelled mode text kinds) :
    Spelled mode (text ++ [')']) (kinds ++ [.closeParen]) := by
  obtain ⟨pieces, hspells⟩ := h
  obtain ⟨first, others, hfirst, hspace⟩ := hspells.begins
  refine ⟨pieces ++ [.mark .closeParen], ?_, ?_, ?_, first, others ++ [.mark .closeParen], ?_,
    hspace⟩
  · rw [spell_append, hspells.spell]
    rfl
  · rw [List.filterMap_append, hspells.kinds]
    rfl
  · intro rest hrest _
    rw [List.append_assoc]
    exact hspells.legible _ ⟨trivial, hrest⟩ fun literal heq ↦ nomatch heq
  · rw [hfirst]
    rfl

/-- The spelling of a group. -/
theorem parenthesize (h : Spelled mode text kinds) :
    Spelled mode (Nabla.parenthesize text) (.openParen :: (kinds ++ [.closeParen])) :=
  h.closed.mark .openParen fun _ ↦ Mark.noConfusion

/-- The spelling of a sign in front of a text. -/
theorem negative (h : Spelled mode text kinds) :
    Spelled mode ('-' :: text) (.negative :: kinds) :=
  h.mark .negative fun _ ↦ Mark.noConfusion

/-- Two texts with an operator and spaces between them. -/
theorem binary (op : Operator) (h : Spelled mode text kinds) (hother : Spelled mode other others) :
    Spelled mode (text ++ [' ', op.character, ' '] ++ other)
      (kinds ++ op.lexemeKind :: others) := by
  obtain ⟨pieces, hspells⟩ := h
  obtain ⟨following, hfollowing⟩ := hother
  obtain ⟨first, rest, hfirst, hspace⟩ := hspells.begins
  refine ⟨pieces ++ .space :: .mark (.operator op) :: .space :: following, ?_, ?_, ?_, first,
    rest ++ .space :: .mark (.operator op) :: .space :: following, ?_, hspace⟩
  · rw [spell_append, hspells.spell, spell_cons, spell_cons, spell_cons, hfollowing.spell,
      List.append_assoc]
    rfl
  · rw [List.filterMap_append, hspells.kinds, filterMap_kind?_space, filterMap_kind?_mark,
      filterMap_kind?_space, hfollowing.kinds]
    rfl
  · intro after hafter hhead
    rw [List.append_assoc]
    refine hspells.legible _ ⟨trivial, ?_, trivial, hfollowing.legible after hafter hhead⟩
      fun literal heq ↦ nomatch heq
    cases op <;> first | exact rfl | trivial
  · rw [hfirst]
    rfl

/-- Two texts with a power between them. -/
theorem power (h : Spelled mode text kinds) (hother : Spelled mode other others) :
    Spelled mode (text ++ ['^'] ++ other) (kinds ++ .power :: others) := by
  obtain ⟨pieces, hspells⟩ := h
  obtain ⟨following, hfollowing⟩ := hother
  obtain ⟨first, rest, hfirst, hspace⟩ := hspells.begins
  refine ⟨pieces ++ .mark (.operator .pow) :: following, ?_, ?_, ?_, first,
    rest ++ .mark (.operator .pow) :: following, ?_, hspace⟩
  · rw [spell_append, hspells.spell, spell_cons, hfollowing.spell, List.append_assoc]
    rfl
  · rw [List.filterMap_append, hspells.kinds, filterMap_kind?_mark, hfollowing.kinds]
    rfl
  · intro after hafter hhead
    rw [List.append_assoc]
    exact hspells.legible _ ⟨trivial, hfollowing.legible after hafter hhead⟩
      fun literal heq ↦ nomatch heq
  · rw [hfirst]
    rfl

end Spelled

/-- A text that is spelled as a sentence is read as the tree of the sentence. -/
theorem parse_of_spelled {text : List Char} (sentence : Sentence)
    (h : Spelled mode text sentence.kinds) :
    Reader.token.parse mode text = .ok sentence.tree := by
  obtain ⟨pieces, hspells⟩ := h
  have hlegible : Legible pieces := by
    have hnil := hspells.legible [] trivial fun literal heq ↦ nomatch heq
    rwa [List.append_nil] at hnil
  have hjoins :
      (pieces.filterMap Piece.kind?).IsChain fun left right ↦ joins left right = false := by
    rw [hspells.kinds]
    refine sentence.separated_kinds.imp fun left right hboth ↦ ?_
    cases hjoins : joins left right with
    | false => rfl
    | true =>
      refine absurd ?_ hboth
      simp only [joins, Bool.and_eq_true, Bool.or_eq_true] at hjoins
      obtain ⟨hleft, hright⟩ := hjoins
      unfold Lexeme.Kind.endsOperand Lexeme.Kind.beginsOperand Lexeme.Kind.beginsLeaf
      rcases hright with hright | hright <;> simp [hleft, hright]
  show (readLexemes mode text).outcome = _
  rw [Recorded.outcome_eq_ok_iff, readLexemes, Recorded.result?_andThen, ← hspells.spell,
    Recorded.outcome_eq_ok_iff.1 (outcome_lexRecorded_spell hlegible hjoins), Option.bind_some]
  refine sentence.result?_read ?_ _
  rw [map_kind_lexemesAt, hspells.kinds]

/-! ### Operands and powers -/

/-- An operand with a negation in front. -/
def Operand.negated : Operand → Prefixed
  | .prefixed leaf => .negated leaf
  | .group contents => .owned .negation contents

/-- A negated operand has one more sign in front. -/
theorem Operand.kinds_negated (operand : Operand) :
    operand.negated.kinds = .negative :: operand.kinds := by
  cases operand <;> rfl

/-- The tree of a negated operand is the negation of its tree. -/
theorem Operand.tree_negated (operand : Operand) : operand.negated.tree = .neg operand.tree := by
  cases operand <;> rfl

/-- What the text of an expression is that needs no parentheses next to an operator: an operand, or
a power of two operands. -/
inductive Tight where
  | alone (operand : Operand)
  | power (base exponent : Operand)

namespace Tight

/-- The kinds of lexemes that a tight sentence is written with. -/
def kinds : Tight → List Lexeme.Kind
  | alone operand => operand.kinds
  | power base exponent => base.kinds ++ .power :: exponent.kinds

/-- The tree of a tight sentence. -/
def tree : Tight → Expr
  | alone operand => operand.tree
  | power base exponent => .binary .pow base.tree exponent.tree

/-- The operand of a tight sentence is no power. -/
def Plain : Tight → Prop
  | alone operand => operand.tree.isPower = false
  | power _ _ => True

/-- A tight sentence with a negation in front, which belongs to the base of a power. -/
def negated : Tight → Tight
  | alone operand => .alone (.prefixed operand.negated)
  | power base exponent => .power (.prefixed base.negated) exponent

/-- A tight sentence with an operator and another sentence after it. -/
def before (op : Operator) (rest : Sentence) : Tight → Sentence
  | alone operand => .chained operand op rest
  | power base exponent => .chained base .pow (.chained exponent op rest)

/-- A tight sentence on its own. -/
def sentence : Tight → Sentence
  | alone operand => .single operand
  | power base exponent => .chained base .pow (.single exponent)

/-- A sign in front of an operand or of a power is one more lexeme. -/
theorem kinds_negated (tight : Tight) : tight.negated.kinds = .negative :: tight.kinds := by
  cases tight with
  | alone operand => exact operand.kinds_negated
  | power base exponent =>
    show base.negated.kinds ++ _ = _
    rw [base.kinds_negated]
    rfl

/-- With a sign in front there is no single power: a sign belongs to the base. -/
theorem plain_negated (tight : Tight) : tight.negated.Plain := by
  cases tight with
  | alone operand =>
    show operand.negated.tree.isPower = false
    rw [operand.tree_negated]
    rfl
  | power base exponent => trivial

/-- The sign in front of a power is read as part of its base. -/
theorem tree_negated {tight : Tight} (hplain : tight.Plain) :
    tight.negated.tree = tight.tree.negateText := by
  cases tight with
  | alone operand =>
    show operand.negated.tree = operand.tree.negateText
    rw [operand.tree_negated, Expr.negateText_of_isPower_eq_false hplain]
  | power base exponent =>
    show Expr.binary .pow base.negated.tree exponent.tree = _
    rw [base.tree_negated]
    rfl

/-- The kinds of an operand, an operator and a sentence, in order. -/
theorem kinds_before (tight : Tight) (op : Operator) (rest : Sentence) :
    (tight.before op rest).kinds = tight.kinds ++ op.lexemeKind :: rest.kinds := by
  cases tight with
  | alone operand => rfl
  | power base exponent =>
    show base.kinds ++ .power :: (exponent.kinds ++ op.lexemeKind :: rest.kinds) =
      (base.kinds ++ .power :: exponent.kinds) ++ _
    rw [List.append_assoc]
    rfl

/-- As a sentence of its own it has the same kinds. -/
theorem kinds_sentence (tight : Tight) : tight.sentence.kinds = tight.kinds := by
  cases tight <;> rfl

/-- As a sentence of its own it stands for the same tree. -/
theorem tree_sentence (tight : Tight) : tight.sentence.tree = tight.tree := by
  cases tight with
  | alone operand => exact Chain.tree_eq_first rfl
  | power base exponent =>
    show Chain.tree ⟨base.tree, [(.pow, exponent.tree)]⟩ = _
    rw [Chain.tree_eq_binary rfl, Chain.tree_eq_first rfl, Chain.tree_eq_first rfl]
    rfl

/-- Two tight sentences are the sides of a looser operator between them. -/
theorem tree_before (left right : Tight) {op : Operator} (hop : op ≠ .pow) :
    (left.before op right.sentence).tree = .binary op left.tree right.tree := by
  have hlooser : op.rank.level < Operator.pow.rank.level := by
    cases op <;> first | decide | exact absurd rfl hop
  have hright : splitLoosest ((op, right.sentence.chain.first) :: right.sentence.chain.rest) =
      some ([], (op, right.sentence.chain.first), right.sentence.chain.rest) := by
    cases right with
    | alone operand => rfl
    | power base exponent =>
      -- the chain is split in front of the power, which is tighter
      exact if_neg (Nat.lt_asymm hlooser)
  cases left with
  | alone operand =>
    rw [← right.tree_sentence]
    show Chain.tree ⟨operand.tree, _⟩ = _
    rw [Chain.tree_eq_binary hright, Chain.tree_eq_first rfl]
    rfl
  | power base exponent =>
    have hsplit : splitLoosest
        ((.pow, exponent.tree) :: (op, right.sentence.chain.first) :: right.sentence.chain.rest) =
          some ([(.pow, exponent.tree)], (op, right.sentence.chain.first),
            right.sentence.chain.rest) := by
      rw [splitLoosest, hright]
      exact if_pos hlooser
    rw [← right.tree_sentence, ← tree_sentence]
    show Chain.tree ⟨base.tree, _⟩ = _
    rw [Chain.tree_eq_binary hsplit]
    rfl

end Tight

/-! ### The text of an expression -/

/-- The text of an expression is a sentence, whether it is written on its own, next to an operator
or in a power, and stands for `Expr.reread`. -/
structure Written (mode : Mode) (e : Expr) : Prop where
  sentence : ∃ sentence : Sentence,
    Spelled mode (e.chars .plain) sentence.kinds ∧ sentence.tree = e.reread
  tight : ∃ tight : Tight, tight.Plain ∧
    Spelled mode (parenthesizeIf e.isArithmetic (e.chars .plain)) tight.kinds ∧
      tight.tree = e.reread
  operand : ∃ operand : Operand,
    Spelled mode (parenthesizeIf (e.wrapsInPower .plain) (e.chars .plain)) operand.kinds ∧
      operand.tree = e.reread

namespace Written

variable {e : Expr}

/-- A text that is a leaf is never put in parentheses. -/
theorem of_leaf (leaf : Prefixed) (hspelled : Spelled mode (e.chars .plain) leaf.kinds)
    (htree : leaf.tree = e.reread) (hpower : leaf.tree.isPower = false)
    (harithmetic : e.isArithmetic = false) (hwraps : e.wrapsInPower .plain = false) :
    Written mode e := by
  refine ⟨⟨.single (.prefixed leaf), hspelled, ?_⟩, ⟨.alone (.prefixed leaf), hpower, ?_, htree⟩,
    ⟨.prefixed leaf, ?_, htree⟩⟩
  · exact (Tight.tree_sentence (.alone (.prefixed leaf))).trans htree
  · rw [harithmetic]
    exact hspelled
  · rw [hwraps]
    exact hspelled

/-- A text that is a sentence is an operand in parentheses. -/
theorem group_of_sentence {sentence : Sentence}
    (hspelled : Spelled mode (e.chars .plain) sentence.kinds) (htree : sentence.tree = e.reread) :
    Spelled mode (parenthesize (e.chars .plain)) (Operand.group sentence).kinds ∧
      (Operand.group sentence).tree = e.reread :=
  ⟨hspelled.parenthesize, htree⟩

/-- A negation or a power is put in parentheses in a power only. -/
theorem of_tight (tight : Tight) (hplain : tight.Plain)
    (hspelled : Spelled mode (e.chars .plain) tight.kinds) (htree : tight.tree = e.reread)
    (harithmetic : e.isArithmetic = false) (hwraps : e.wrapsInPower .plain = true) :
    Written mode e := by
  rw [← tight.kinds_sentence] at hspelled
  have hsentence : tight.sentence.tree = e.reread := tight.tree_sentence.trans htree
  refine ⟨⟨tight.sentence, hspelled, hsentence⟩, ⟨tight, hplain, ?_, htree⟩,
    ⟨.group tight.sentence, ?_⟩⟩
  · rw [harithmetic, ← tight.kinds_sentence]
    exact hspelled
  · rw [hwraps]
    exact group_of_sentence hspelled hsentence

/-- A sum, difference, product or quotient is put in parentheses wherever it is an operand. -/
theorem of_sentence (sentence : Sentence)
    (hspelled : Spelled mode (e.chars .plain) sentence.kinds) (htree : sentence.tree = e.reread)
    (hpower : sentence.tree.isPower = false) (harithmetic : e.isArithmetic = true) :
    Written mode e := by
  have hgroup := group_of_sentence hspelled htree
  refine ⟨⟨sentence, hspelled, htree⟩, ⟨.alone (.group sentence), hpower, ?_⟩,
    ⟨.group sentence, ?_⟩⟩
  · rw [harithmetic]
    exact hgroup
  · rw [Expr.wrapsInPower, harithmetic]
    exact hgroup

/-- The text of a constant is a number. -/
theorem constant {value : Float32} {places : Nat}
    (hreadable : (Expr.constant value places).Readable mode)
    (hfinite : (Expr.constant value places).FiniteConstants) :
    Written mode (.constant value places) := by
  obtain ⟨literal, hliteral⟩ := Expr.exists_literal hreadable hfinite
  let kind : Lexeme.Kind := .number literal.numeral
  have hspelled : Spelled mode literal.text [kind] :=
    Spelled.leaf (.number literal) rfl rfl
  refine of_leaf (.value kind (.constant literal.numeral.value literal.numeral.places) rfl) ?_ ?_
    rfl rfl rfl
  · show Spelled mode (Decimal.fixedChars value places) _
    rw [← hliteral]
    exact hspelled
  · unfold Expr.reread
    rw [← hliteral, literal.ofChars?_text]
    rfl

/-- The text of a symbol is its letter. -/
theorem symbol {name : Symbol} (hallowed : mode.allows name = true) :
    Written mode (.symbol name) := by
  have hspelled : Spelled mode [name.letter] [.symbol name] :=
    Spelled.leaf (.symbol name hallowed) rfl rfl
  exact of_leaf (.value (.symbol name) (.symbol name) rfl) hspelled rfl rfl rfl rfl

/-- The text of a negation is a sign in front of that of its operand. -/
theorem neg (h : Written mode e) : Written mode (.neg e) := by
  obtain ⟨tight, hplain, hspelled, htree⟩ := h.tight
  -- the operand is written without parentheses even if it is a power
  refine of_tight tight.negated tight.plain_negated ?_ ?_ rfl rfl
  · rw [tight.kinds_negated]
    exact hspelled.negative
  · rw [Tight.tree_negated hplain, htree]
    rfl

/-- The text of a power is that of its base and its exponent, in parentheses where they need them.
-/
theorem pow {base exponent : Expr} (hbase : Written mode base) (hexponent : Written mode exponent) :
    Written mode (.binary .pow base exponent) := by
  obtain ⟨left, hleft, hleftTree⟩ := hbase.operand
  obtain ⟨right, hright, hrightTree⟩ := hexponent.operand
  refine of_tight (.power left right) trivial ?_ ?_ rfl rfl
  · exact hleft.power hright
  · show Expr.binary .pow left.tree right.tree = _
    rw [hleftTree, hrightTree]
    rfl

/-- The text of another operation is that of its operands, in parentheses where they need them. -/
theorem arithmetic {op : Operator} {left right : Expr} (hop : op ≠ .pow)
    (hleft : Written mode left) (hright : Written mode right) :
    Written mode (.binary op left right) := by
  obtain ⟨first, -, hfirst, hfirstTree⟩ := hleft.tight
  obtain ⟨second, -, hsecond, hsecondTree⟩ := hright.tight
  have htree : (first.before op second.sentence).tree = .binary op left.reread right.reread := by
    rw [first.tree_before second hop, hfirstTree, hsecondTree]
  refine of_sentence (first.before op second.sentence) ?_ htree ?_ ?_
  · rw [first.kinds_before, second.kinds_sentence]
    have hspelled := hfirst.binary op hsecond
    cases op <;> first | exact hspelled | exact absurd rfl hop
  · rw [htree]
    cases op <;> first | rfl | exact absurd rfl hop
  · cases op <;> first | rfl | exact absurd rfl hop

/-- The text of a call is the name of the function and its argument in parentheses. -/
theorem call {function : Function} {argument : Expr} (hfunction : function ≠ .ln)
    (h : Written mode argument) : Written mode (.call function argument) := by
  obtain ⟨contents, hspelled, htree⟩ := h.sentence
  have happly (opener : Opener) :
      (Prefixed.owned opener contents).tree = opener.apply argument.reread :=
    congrArg opener.apply htree
  cases function with
  | sin =>
    exact of_leaf (.owned .sine contents)
      (hspelled.parenthesize.mark .sine fun _ ↦ Mark.noConfusion)
      (happly .sine) (by rw [happly]; rfl) rfl rfl
  | cos =>
    exact of_leaf (.owned .cosine contents)
      (hspelled.parenthesize.mark .cosine fun _ ↦ Mark.noConfusion)
      (happly .cosine) (by rw [happly]; rfl) rfl rfl
  | ln => exact absurd rfl hfunction

end Written

/-- The plain text of a readable expression with finite constants is a sentence. -/
theorem written {e : Expr} (hreadable : e.Readable mode) (hfinite : e.FiniteConstants) :
    Written mode e := by
  induction e with
  | constant value places => exact .constant hreadable hfinite
  | symbol name => exact .symbol hreadable
  | neg operand ih => exact .neg (ih hreadable hfinite)
  | binary op left right ihleft ihright =>
    have hleft := ihleft hreadable.1 hfinite.1
    have hright := ihright hreadable.2 hfinite.2
    by_cases hop : op = .pow
    · subst hop
      exact .pow hleft hright
    · exact .arithmetic hop hleft hright
  | call function argument ih => exact .call hreadable.1 (ih hreadable.2 hfinite)

/-- The plain text of an expression that was read is read as `Expr.reread` in the same mode. That is
the expression itself, and so has its values, exactly if no negation stands directly in front of a
power and every constant is the number nearest to its text. -/
theorem parse_plain_of_parse {text : List Char} {e : Expr}
    (hparse : Reader.token.parse mode text = .ok e) (hfinite : e.FiniteConstants) :
    Reader.token.parse mode (e.chars .plain) = .ok e.reread ∧ (e.reread = e ↔ e.ReadsBack) ∧
      (e.ReadsBack → ∀ point, e.reread.eval point = e.eval point) := by
  have hreadable : e.Readable mode := readable_of_readLexemes hparse
  have hsame : e.reread = e ↔ e.ReadsBack := Expr.reread_eq_self_iff hreadable hfinite
  obtain ⟨sentence, hspelled, htree⟩ := (written hreadable hfinite).sentence
  refine ⟨?_, hsame, ?_⟩
  · rw [← htree]
    exact parse_of_spelled sentence hspelled
  · intro hreads point
    rw [hsame.2 hreads]

/-- The plain text of the expression read from `((x - -(y)) * 2.50)` is `(x - -y) * 2.50`, and is
read as that expression. -/
theorem parse_plain_scaled_difference :
    let e : Expr := .binary .mul (.binary .sub (.symbol .x) (.neg (.symbol .y))) (.constant 2.5 2)
    Reader.token.parse .multiVariable "((x - -(y)) * 2.50)".toList = .ok e ∧ e.FiniteConstants ∧
      Reader.token.parse .multiVariable "(x - -y) * 2.50".toList = .ok e := by
  intro e
  let literal : Literal := ⟨'2', ['.', '5', '0'], rfl, List.all_eq_true.1 rfl, by decide⟩
  let x : Prefixed := .value (.symbol .x) (.symbol .x) rfl
  let y : Prefixed := .value (.symbol .y) (.symbol .y) rfl
  let scale : Prefixed := .value (.number ⟨2.5, 2⟩) (.constant 2.5 2) rfl
  let difference : Sentence :=
    .chained (.prefixed x) .sub (.single (.prefixed (.owned .negation (.single (.prefixed y)))))
  let sentence : Sentence :=
    .single (.group (.chained (.group difference) .mul (.single (.prefixed scale))))
  have hparse : Reader.token.parse .multiVariable "((x - -(y)) * 2.50)".toList = .ok e := by
    have hx : Spelled .multiVariable ['x'] [.symbol .x] := .leaf (.symbol .x rfl) rfl rfl
    have hy : Spelled .multiVariable ['y'] [.symbol .y] := .leaf (.symbol .y rfl) rfl rfl
    have hnumeral : literal.numeral = ⟨2.5, 2⟩ := by decide +kernel
    have hscale : Spelled .multiVariable literal.text scale.kinds :=
      .leaf (.number literal) (congrArg (some ∘ Lexeme.Kind.number) hnumeral) rfl
    have hspelled : Spelled .multiVariable "((x - -(y)) * 2.50)".toList sentence.kinds :=
      ((hx.binary .sub hy.parenthesize.negative).parenthesize.binary .mul hscale).parenthesize
    rw [parse_of_spelled sentence hspelled]
    simp [e, sentence, difference, scale, x, y, Sentence.tree, Sentence.chain, Operand.tree,
      Prefixed.tree, Chain.tree, splitLoosest, Opener.apply]
  have hparts : Binary32.parts 2.5 = .finite false 10485760 (-22) := by decide +kernel
  have hfinite : e.FiniteConstants := ⟨⟨trivial, trivial⟩, _, _, _, hparts⟩
  obtain ⟨hplain, hsame, -⟩ := parse_plain_of_parse hparse hfinite
  have hconstant : Numeral.ofChars? (Decimal.fixedChars 2.5 2) = some ⟨2.5, 2⟩ := by
    decide +kernel
  rw [hsame.2 ⟨⟨trivial, rfl, trivial⟩, hconstant⟩] at hplain
  have hchars : e.chars .plain = "(x - -y) * 2.50".toList := by decide +kernel
  rw [hchars] at hplain
  exact ⟨hparse, hfinite, hplain⟩

/-- The plain text of the expression read from `-(x^2)` is `-x^2`, which is read as the square of a
negation, with other values. -/
theorem parse_plain_negated_square :
    let e : Expr := .neg (.binary .pow (.symbol .x) (.constant 2 0))
    let other : Expr := .binary .pow (.neg (.symbol .x)) (.constant 2 0)
    Reader.token.parse .multiVariable "-(x^2)".toList = .ok e ∧ e.FiniteConstants ∧
      Reader.token.parse .multiVariable (e.chars .plain) = .ok other ∧
        other.eval ⟨3, 0, 0⟩ ≠ e.eval ⟨3, 0, 0⟩ := by
  intro e other
  let literal : Literal := ⟨'2', [], rfl, List.all_eq_true.1 rfl, by decide⟩
  let x : Prefixed := .value (.symbol .x) (.symbol .x) rfl
  let two : Prefixed := .value (.number literal.numeral) (.constant 2 0) rfl
  have hx : Spelled .multiVariable ['x'] x.kinds := .leaf (.symbol .x rfl) rfl rfl
  have htwo : Spelled .multiVariable literal.text two.kinds := .leaf (.number literal) rfl rfl
  refine ⟨?_, ⟨trivial, _, _, _, rfl⟩, ?_, by decide⟩
  · let square : Sentence := .chained (.prefixed x) .pow (.single (.prefixed two))
    let sentence : Sentence := .single (.prefixed (.owned .negation square))
    have hspelled : Spelled .multiVariable "-(x^2)".toList sentence.kinds :=
      (hx.power htwo).parenthesize.negative
    rw [parse_of_spelled sentence hspelled]
    simp [e, sentence, square, x, two, Sentence.tree, Sentence.chain, Operand.tree,
      Prefixed.tree, Chain.tree, splitLoosest, Opener.apply]
  · let sentence : Sentence := .chained (.prefixed (.negated x)) .pow (.single (.prefixed two))
    have hspelled : Spelled .multiVariable (e.chars .plain) sentence.kinds :=
      hx.negative.power htwo
    rw [parse_of_spelled sentence hspelled]
    simp [other, sentence, x, two, Sentence.tree, Sentence.chain, Operand.tree, Prefixed.tree,
      Chain.tree, splitLoosest]

end Nabla.Formula
