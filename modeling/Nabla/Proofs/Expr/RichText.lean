import Mathlib.Data.List.Forall2
import Nabla.Proofs.Decimal.Literal
import Nabla.Proofs.Expr.Likeness

/-!
# What rich text tells

The rich text of an expression can be taken apart again, so two expressions whose constants are
written as literals have the same rich text exactly if they look the same (`chars_html_eq_iff`).

The text of an operand begins with its negations. A core comes next, which is a constant, a symbol,
a call or a sum, difference, product or quotient in parentheses, and then the exponents. A core is
recognised by its first character and ends by itself, apart from a constant, which ends where its
digits do. So the parts of two equal texts look the same one after the other, whatever comes after
the texts (`determined`).
-/

namespace Nabla

open Decimal (Literal)
open Formula (negate)

/-- The first letter of the name of a function. -/
def Function.initial : Function → Char
  | sin => 's'
  | cos => 'c'
  | ln => 'l'

namespace Expr

/-- Every constant is written as a literal. -/
def LiteralConstants : Expr → Prop
  | constant value places => ∃ literal : Literal, literal.text = Decimal.fixedChars value places
  | symbol _ => True
  | neg operand => operand.LiteralConstants
  | binary _ left right => left.LiteralConstants ∧ right.LiteralConstants
  | call _ argument => argument.LiteralConstants

/-! ### The parts of an operand -/

/-- The number of negations that the text of an expression begins with. -/
def negations : Expr → Nat
  | neg operand => operand.negations + 1
  | binary .pow base _ => base.negations
  | _ => 0

/-- What the negations and the exponents of an expression belong to. -/
def core : Expr → Expr
  | neg operand => operand.core
  | binary .pow base _ => base.core
  | e => e

/-- The exponents that the text of an expression ends with, from left to right. -/
def exponents : Expr → List Expr
  | neg operand => operand.exponents
  | binary .pow base exponent => base.exponents ++ [exponent]
  | _ => []

/-- An expression that is no negation and no power. -/
inductive IsCore : Expr → Prop
  | constant (value : Float32) (places : Nat) : IsCore (constant value places)
  | symbol (name : Symbol) : IsCore (symbol name)
  | arithmetic {operator : Operator} (h : operator ≠ .pow) (left right : Expr) :
      IsCore (binary operator left right)
  | call (function : Function) (argument : Expr) : IsCore (call function argument)

/-- What the negations and exponents belong to is no negation and no power. -/
theorem isCore_core (e : Expr) : IsCore e.core := by
  induction e with
  | constant value places => exact .constant value places
  | symbol name => exact .symbol name
  | neg operand ih => exact ih
  | binary operator left right ihleft =>
    cases operator with
    | pow => exact ihleft
    | _ => exact .arithmetic (by decide) left right
  | call function argument => exact .call function argument

/-- A core has no other parts. -/
theorem IsCore.parts {e : Expr} (h : IsCore e) :
    e.negations = 0 ∧ e.core = e ∧ e.exponents = [] := by
  cases h with
  | @arithmetic operator h left right =>
    cases operator with
    | pow => exact absurd rfl h
    | _ => exact ⟨rfl, rfl, rfl⟩
  | _ => exact ⟨rfl, rfl, rfl⟩

/-- The text of an operand: negations, a core and exponents. -/
theorem operandChars_eq (e : Expr) :
    e.operandChars = List.replicate e.negations '-' ++
      (e.core.operandChars ++ e.exponents.flatMap raised) := by
  have hcore {e : Expr} (h : IsCore e) : e.operandChars = List.replicate e.negations '-' ++
      (e.core.operandChars ++ e.exponents.flatMap raised) := by
    obtain ⟨hnegations, hself, hexponents⟩ := h.parts
    rw [hnegations, hself, hexponents]
    exact (List.append_nil _).symm
  induction e with
  | constant value places => exact hcore (.constant value places)
  | symbol name => exact hcore (.symbol name)
  | neg operand ih =>
    show '-' :: operand.operandChars = _
    rw [ih]
    rfl
  | binary operator left right ihleft =>
    by_cases hpow : operator = .pow
    · subst hpow
      show (pow left right).chars .html = List.replicate left.negations '-' ++
        (left.core.operandChars ++ (left.exponents ++ [right]).flatMap raised)
      rw [chars_pow, ihleft, List.flatMap_append, List.flatMap_singleton, List.append_assoc,
        List.append_assoc]
    · exact hcore (.arithmetic hpow left right)
  | call function argument => exact hcore (.call function argument)

/-- An expression with its negations moved is its core with all of them in front, raised to its
exponents. -/
theorem sinkUnder_eq (count : Nat) (e : Expr) :
    e.sinkUnder count = (e.exponents.map sinkNegations).foldl (binary .pow)
      (negate (count + e.negations) e.core.sinkNegations) := by
  induction e generalizing count with
  | constant value places => rfl
  | symbol name => rfl
  | neg operand ih =>
    show operand.sinkUnder (count + 1) = (operand.exponents.map sinkNegations).foldl (binary .pow)
      (negate (count + (operand.negations + 1)) operand.core.sinkNegations)
    rw [ih, Nat.add_right_comm, Nat.add_assoc]
  | binary operator left right ihleft =>
    cases operator with
    | pow =>
      show binary .pow (left.sinkUnder count) right.sinkNegations =
        ((left.exponents ++ [right]).map sinkNegations).foldl (binary .pow)
          (negate (count + left.negations) left.core.sinkNegations)
      rw [ihleft, List.map_append, List.foldl_append]
      rfl
    | _ => rfl
  | call function argument => rfl

/-- Operands with the same parts look the same. -/
theorem looksSame_of_parts {e other : Expr} (hnegations : e.negations = other.negations)
    (hcore : e.core.LooksSame other.core)
    (hexponents : List.Forall₂ LooksSame e.exponents other.exponents) : e.LooksSame other := by
  have hraised {base otherBase : Expr} {exponents others : List Expr}
      (hexponents : List.Forall₂ LooksSame exponents others) (hbase : base.LooksLike otherBase) :
      ((exponents.map sinkNegations).foldl (binary .pow) base).LooksLike
        ((others.map sinkNegations).foldl (binary .pow) otherBase) := by
    induction hexponents generalizing base otherBase with
    | nil => exact hbase
    | cons hfirst hrest ih => exact ih (.binary .pow hbase hfirst)
  show (e.sinkUnder 0).LooksLike (other.sinkUnder 0)
  rw [sinkUnder_eq, sinkUnder_eq 0 other, hnegations]
  exact hraised hexponents (hcore.negate _)

/-- The constants of the core are constants of the expression. -/
theorem LiteralConstants.core {e : Expr} (h : e.LiteralConstants) : e.core.LiteralConstants := by
  induction e with
  | neg operand ih => exact ih h
  | binary operator left right ihleft =>
    cases operator with
    | pow => exact ihleft h.1
    | _ => exact h
  | _ => exact h

/-- The constants of the exponents are constants of the expression. -/
theorem LiteralConstants.exponents {e : Expr} (h : e.LiteralConstants) :
    ∀ exponent ∈ e.exponents, exponent.LiteralConstants := by
  induction e with
  | neg operand ih => exact ih h
  | binary operator left right ihleft =>
    cases operator with
    | pow =>
      intro exponent hmem
      rcases List.mem_append.1 hmem with hleft | hright
      · exact ihleft h.1 exponent hleft
      · rw [List.mem_singleton.1 hright]
        exact h.2
    | _ => exact List.forall_mem_nil _
  | _ => exact List.forall_mem_nil _

/-! ### Where texts end -/

/-- A text that does not go on with a number. -/
def EndsNumber (rest : List Char) : Prop := ∀ c ∈ rest.head?, Decimal.isNumeralChar c = false

/-- A text that does not go on with an operand: with its digits, or with one more exponent. -/
structure EndsOperand (rest : List Char) : Prop where
  number : EndsNumber rest
  exponent : ¬"<sup>".toList <+: rest

/-- A text that does not go on with an operator either. -/
structure EndsWhole (rest : List Char) : Prop extends EndsOperand rest where
  operator : rest.head? ≠ some ' '

/-- A text that begins with neither a digit nor a tag does not go on with an operand. -/
theorem endsOperand_of_first {c : Char} (hnumber : Decimal.isNumeralChar c = false)
    (hsup : c ≠ '<') (rest : List Char) : EndsOperand (c :: rest) := by
  refine ⟨fun first hfirst ↦ ?_, fun hprefix ↦ ?_⟩
  · cases hfirst
    exact hnumber
  · exact hsup (List.cons_prefix_cons.1 hprefix).1.symm

/-- A closing parenthesis ends an expression. -/
theorem endsWhole_closeParen (rest : List Char) : EndsWhole (')' :: rest) :=
  ⟨endsOperand_of_first rfl (by decide) rest, fun heq ↦ nomatch heq⟩

/-- The end of the text ends an expression. -/
theorem endsWhole_nil : EndsWhole [] where
  number _ hnone := absurd hnone (Option.not_mem_none _)
  exponent hprefix := nomatch List.prefix_nil.1 hprefix
  operator heq := nomatch heq

/-- The end of an exponent ends an operand. -/
theorem endsOperand_closeTag (rest : List Char) : EndsOperand ("</sup>".toList ++ rest) := by
  refine ⟨fun first hfirst ↦ ?_, fun hprefix ↦ ?_⟩
  · cases hfirst
    rfl
  · exact absurd (List.cons_prefix_cons.1 (List.cons_prefix_cons.1 hprefix).2).1 (by decide)

/-- No digit follows a core, neither in its exponents nor behind them. -/
theorem EndsOperand.endsNumber_exponents {rest : List Char} (h : EndsOperand rest)
    (exponents : List Expr) : EndsNumber (exponents.flatMap raised ++ rest) := by
  cases exponents with
  | nil => exact h.number
  | cons exponent others =>
    intro first hfirst
    cases hfirst
    rfl

/-! ### Cores -/

/-- What the text of a core begins with. -/
def Opens : Expr → Char → Prop
  | constant .., c => c.isDigit = true
  | symbol _, c => c = '<'
  | neg _, _ => False
  | binary .., c => c = '('
  | call function _, c => c = function.initial

/-- The text of a core begins with a character that tells its kind. -/
theorem IsCore.exists_opens {e : Expr} (h : IsCore e) (hliterals : e.LiteralConstants) :
    ∃ c rest, e.operandChars = c :: rest ∧ e.Opens c := by
  cases h with
  | constant value places =>
    obtain ⟨literal, hliteral⟩ := hliterals
    exact ⟨literal.first, literal.rest, hliteral.symm, literal.isDigit_first⟩
  | symbol name => exact ⟨_, _, rfl, rfl⟩
  | @arithmetic operator hop left right =>
    rw [operandChars_arithmetic hop]
    exact ⟨_, _, rfl, rfl⟩
  | call function argument => cases function <;> exact ⟨_, _, rfl, rfl⟩

/-- Two cores of one kind. -/
inductive SameKind : Expr → Expr → Prop
  | constant (value : Float32) (places : Nat) (other : Float32) (otherPlaces : Nat) :
      SameKind (constant value places) (constant other otherPlaces)
  | symbol (name other : Symbol) : SameKind (symbol name) (symbol other)
  | arithmetic {operator other : Operator} (h : operator ≠ .pow) (hother : other ≠ .pow)
      (left right otherLeft otherRight : Expr) :
      SameKind (binary operator left right) (binary other otherLeft otherRight)
  | call (function : Function) (argument other : Expr) :
      SameKind (call function argument) (call function other)

/-- The first character of a core tells its kind. -/
theorem IsCore.sameKind {e other : Expr} (h : IsCore e) (hother : IsCore other) {c : Char}
    (hopens : e.Opens c) (hotherOpens : other.Opens c) : SameKind e other := by
  cases h with
  | constant value places =>
    cases hother with
    | constant otherValue otherPlaces => exact .constant value places otherValue otherPlaces
    | call function argument =>
      obtain rfl : c = function.initial := hotherOpens
      cases function <;> cases hopens
    | _ =>
      cases hotherOpens
      cases hopens
  | symbol name =>
    obtain rfl : c = '<' := hopens
    cases hother with
    | symbol otherName => exact .symbol name otherName
    | call function argument => cases function <;> cases hotherOpens
    | _ => cases hotherOpens
  | @arithmetic operator hop left right =>
    obtain rfl : c = '(' := hopens
    cases hother with
    | arithmetic hotherOp otherLeft otherRight =>
      exact .arithmetic hop hotherOp left right otherLeft otherRight
    | call function argument => cases function <;> cases hotherOpens
    | _ => cases hotherOpens
  | call function argument =>
    obtain rfl : c = function.initial := hopens
    cases hother with
    | call otherFunction otherArgument =>
      obtain rfl : function = otherFunction := by
        cases function <;> cases otherFunction <;> first | rfl | cases hotherOpens
      exact .call function argument otherArgument
    | _ => cases function <;> cases hotherOpens

/-- Cores that equal texts begin with are of one kind. -/
theorem sameKind_of_append_eq {e other : Expr} (hcore : IsCore e) (hotherCore : IsCore other)
    (hliterals : e.LiteralConstants) (hotherLiterals : other.LiteralConstants)
    {rest following : List Char}
    (h : e.operandChars ++ rest = other.operandChars ++ following) : SameKind e other := by
  obtain ⟨c, others, hchars, hopens⟩ := hcore.exists_opens hliterals
  obtain ⟨d, otherRest, hotherChars, hotherOpens⟩ := hotherCore.exists_opens hotherLiterals
  rw [hchars, hotherChars] at h
  obtain rfl : c = d := (List.cons.inj h).1
  exact hcore.sameKind hotherCore hopens hotherOpens

/-- A constant ends where its digits do. -/
theorem fixedChars_eq_of_append_eq {value other : Float32} {places otherPlaces : Nat}
    (hliteral : (constant value places).LiteralConstants)
    (hotherLiteral : (constant other otherPlaces).LiteralConstants) {rest following : List Char}
    (hrest : EndsNumber rest) (hfollowing : EndsNumber following)
    (h : Decimal.fixedChars value places ++ rest =
      Decimal.fixedChars other otherPlaces ++ following) :
    Decimal.fixedChars value places = Decimal.fixedChars other otherPlaces ∧ rest = following := by
  have hnumeral (literal : Literal) : ∀ c ∈ literal.text, Decimal.isNumeralChar c = true :=
    List.forall_mem_cons.2
      ⟨Decimal.isNumeralChar_of_isDigit literal.isDigit_first, literal.isNumeralChar_rest⟩
  obtain ⟨literal, hliteral⟩ := hliteral
  obtain ⟨otherLiteral, hotherLiteral⟩ := hotherLiteral
  rw [← hliteral, ← hotherLiteral] at h ⊢
  obtain ⟨htake, hdrop⟩ := Decimal.span_eq (hnumeral literal) hrest
  obtain ⟨hotherTake, hotherDrop⟩ := Decimal.span_eq (hnumeral otherLiteral) hfollowing
  rw [h] at htake hdrop
  exact ⟨htake.symm.trans hotherTake, hdrop.symm.trans hotherDrop⟩

/-! ### Texts that are taken apart -/

/-- If two equal texts begin with those of two expressions and go on in an admissible way, then the
expressions look the same and what comes after them is the same. -/
def Tells (chars : Expr → List Char) (ends : List Char → Prop) (e other : Expr) : Prop :=
  ∀ rest following, ends rest → ends following → chars e ++ rest = chars other ++ following →
    e.LooksSame other ∧ rest = following

/-- The text of an operand tells what it looks like. -/
def TellsOperand (e : Expr) : Prop :=
  ∀ other, other.LiteralConstants → Tells operandChars EndsOperand e other

/-- The text of a core tells what it looks like among cores. -/
def TellsCore (e : Expr) : Prop :=
  ∀ other, IsCore other → other.LiteralConstants → Tells operandChars EndsNumber e other

/-- The text of an expression on its own tells what it looks like. -/
def TellsWhole (e : Expr) : Prop :=
  ∀ other, other.LiteralConstants → Tells (chars .html) EndsWhole e other

/-- What the texts of an expression and of its parts tell. -/
structure Determined (e : Expr) : Prop where
  whole : TellsWhole e
  core : TellsCore e.core
  exponents : ∀ exponent ∈ e.exponents, TellsOperand exponent

/-- Negations are counted up to the first other character. -/
theorem eq_of_replicate_append {count other : Nat} {text following : List Char}
    (htext : text.head? ≠ some '-') (hfollowing : following.head? ≠ some '-')
    (h : List.replicate count '-' ++ text = List.replicate other '-' ++ following) :
    count = other ∧ text = following := by
  induction count generalizing other with
  | zero =>
    cases other with
    | zero => exact ⟨rfl, h⟩
    | succ other =>
      rw [List.replicate_zero, List.nil_append] at h
      rw [h] at htext
      exact absurd rfl htext
  | succ count ih =>
    cases other with
    | zero =>
      rw [List.replicate_zero, List.nil_append] at h
      rw [← h] at hfollowing
      exact absurd rfl hfollowing
    | succ other =>
      obtain ⟨hcount, hrest⟩ := ih (List.cons.inj h).2
      exact ⟨congrArg Nat.succ hcount, hrest⟩

/-- No negation comes after the negations. -/
theorem head?_core_ne {e : Expr} (hliterals : e.LiteralConstants) (rest : List Char) :
    (e.core.operandChars ++ rest).head? ≠ some '-' := by
  obtain ⟨c, others, hchars, hopens⟩ := e.isCore_core.exists_opens hliterals.core
  rw [hchars]
  intro heq
  obtain rfl : c = '-' := Option.some.inj heq
  cases he : e.core with
  | call function argument =>
    rw [he] at hopens
    cases function <;> cases hopens
  | _ =>
    rw [he] at hopens
    cases hopens

/-- Exponents are told one after the other. -/
theorem looksSame_exponents {exponents others : List Expr}
    (hexponents : ∀ exponent ∈ exponents, TellsOperand exponent)
    (hothers : ∀ other ∈ others, other.LiteralConstants) {rest following : List Char}
    (hrest : EndsOperand rest) (hfollowing : EndsOperand following)
    (h : exponents.flatMap raised ++ rest = others.flatMap raised ++ following) :
    List.Forall₂ LooksSame exponents others ∧ rest = following := by
  have hraised (exponent : Expr) (others : List Expr) (rest : List Char) :
      (exponent :: others).flatMap raised ++ rest = "<sup>".toList ++
        (exponent.operandChars ++ ("</sup>".toList ++ (others.flatMap raised ++ rest))) := by
    rw [List.flatMap_cons, raised]
    simp only [List.append_assoc]
  -- one list cannot end before the other: what follows an operand begins no exponent
  induction exponents generalizing others with
  | nil =>
    cases others with
    | nil => exact ⟨.nil, h⟩
    | cons other others =>
      rw [hraised] at h
      exact absurd ⟨_, h.symm⟩ hrest.exponent
  | cons exponent exponents ih =>
    cases others with
    | nil =>
      rw [hraised] at h
      exact absurd ⟨_, h⟩ hfollowing.exponent
    | cons other others =>
      obtain ⟨htells, hexponents⟩ := List.forall_mem_cons.1 hexponents
      obtain ⟨hliterals, hothers⟩ := List.forall_mem_cons.1 hothers
      rw [hraised, hraised] at h
      obtain ⟨hsame, h⟩ := htells other hliterals _ _ (endsOperand_closeTag _)
        (endsOperand_closeTag _) (List.append_cancel_left h)
      obtain ⟨hall, hend⟩ := ih hexponents hothers (List.append_cancel_left h)
      exact ⟨.cons hsame hall, hend⟩

/-- The text of an operand is told by its parts. -/
theorem tellsOperand_of_parts {e : Expr} (hliterals : e.LiteralConstants)
    (hcore : TellsCore e.core) (hexponents : ∀ exponent ∈ e.exponents, TellsOperand exponent) :
    TellsOperand e := by
  intro other hother rest following hrest hfollowing h
  rw [operandChars_eq, operandChars_eq other, List.append_assoc, List.append_assoc,
    List.append_assoc, List.append_assoc] at h
  obtain ⟨hnegations, h⟩ :=
    eq_of_replicate_append (head?_core_ne hliterals _) (head?_core_ne hother _) h
  obtain ⟨hsame, h⟩ := hcore other.core other.isCore_core hother.core _ _
    (hrest.endsNumber_exponents _) (hfollowing.endsNumber_exponents _) h
  obtain ⟨hall, hend⟩ := looksSame_exponents hexponents hother.exponents hrest hfollowing h
  exact ⟨looksSame_of_parts hnegations hsame hall, hend⟩

/-- The text of an operand tells what it looks like if the texts of its parts do. -/
theorem Determined.tellsOperand {e : Expr} (h : Determined e) (hliterals : e.LiteralConstants) :
    TellsOperand e :=
  tellsOperand_of_parts hliterals h.core h.exponents

/-- An arithmetic expression is an operation that is no power. -/
theorem exists_of_isArithmetic {e : Expr} (h : e.isArithmetic = true) :
    ∃ operator left right, operator ≠ .pow ∧ e = binary operator left right := by
  cases e with
  | binary operator left right => exact ⟨operator, left, right, bne_iff_ne.1 h, rfl⟩
  | _ => cases h

/-- What an operator between spaces comes after is no text of its own. -/
theorem TellsOperand.tellsWhole {e : Expr} (h : TellsOperand e) (hkind : e.isArithmetic = false) :
    TellsWhole e := by
  intro other hother rest following hrest hfollowing heq
  rw [← operandChars_eq_chars hkind] at heq
  cases hotherKind : other.isArithmetic with
  | false =>
    rw [← operandChars_eq_chars hotherKind] at heq
    exact h other hother rest following hrest.toEndsOperand hfollowing.toEndsOperand heq
  | true =>
    obtain ⟨operator, left, right, hop, rfl⟩ := exists_of_isArithmetic hotherKind
    rw [chars_arithmetic hop, List.append_assoc] at heq
    obtain ⟨-, rfl⟩ := h left hother.1 _ _ hrest.toEndsOperand
      (endsOperand_of_first rfl (by decide) _) heq
    exact absurd rfl hrest.operator

/-- Sums, differences, products and quotients are told by their operands. -/
theorem tellsWhole_arithmetic {operator : Operator} (hop : operator ≠ .pow) {left right : Expr}
    (hleft : TellsOperand left) (hright : TellsOperand right) :
    TellsWhole (binary operator left right) := by
  intro other hother rest following hrest hfollowing heq
  have hends (text : List Char) : EndsOperand (' ' :: text) :=
    endsOperand_of_first rfl (by decide) text
  rw [chars_arithmetic hop, List.append_assoc] at heq
  -- the left operands end where a space follows, and what comes next tells the operator
  cases hotherKind : other.isArithmetic with
  | false =>
    rw [← operandChars_eq_chars hotherKind] at heq
    obtain ⟨-, rfl⟩ := hleft other hother _ _ (hends _) hfollowing.toEndsOperand heq
    exact absurd rfl hfollowing.operator
  | true =>
    obtain ⟨otherOperator, otherLeft, otherRight, hotherOp, rfl⟩ :=
      exists_of_isArithmetic hotherKind
    rw [chars_arithmetic hotherOp, List.append_assoc] at heq
    obtain ⟨hsameLeft, heq⟩ := hleft otherLeft hother.1 _ _ (hends _) (hends _) heq
    injection heq with _ heq
    injection heq with hcharacter heq
    injection heq with _ heq
    obtain ⟨hsameRight, hend⟩ := hright otherRight hother.2 _ _ hrest.toEndsOperand
      hfollowing.toEndsOperand heq
    obtain rfl : operator = otherOperator := by
      rw [← Option.some_inj, ← operator.ofCharacter?_character, hcharacter,
        otherOperator.ofCharacter?_character]
    refine ⟨?_, hend⟩
    unfold LooksSame
    rw [sinkNegations_binary, sinkNegations_binary]
    exact .binary operator hsameLeft hsameRight

/-- A text in parentheses, and what follows it. -/
theorem parenthesize_append (text rest : List Char) :
    parenthesize text ++ rest = '(' :: (text ++ ')' :: rest) := by
  show '(' :: (text ++ [')'] ++ rest) = _
  rw [List.append_assoc]
  rfl

/-- The text of a constant tells its number. -/
theorem tellsCore_constant {value : Float32} {places : Nat}
    (hliteral : (constant value places).LiteralConstants) : TellsCore (constant value places) := by
  intro other hother hotherLiterals rest following hrest hfollowing h
  cases sameKind_of_append_eq (.constant value places) hother hliteral hotherLiterals h with
  | constant _ _ otherValue otherPlaces =>
    obtain ⟨htext, hend⟩ := fixedChars_eq_of_append_eq hliteral hotherLiterals hrest hfollowing h
    exact ⟨.constant htext, hend⟩

/-- The text of a symbol tells its letter. -/
theorem tellsCore_symbol (name : Symbol) : TellsCore (symbol name) := by
  intro other hother hotherLiterals rest following hrest hfollowing h
  cases sameKind_of_append_eq (.symbol name) hother trivial hotherLiterals h with
  | symbol _ otherName =>
    have htext (name : Symbol) (rest : List Char) :
        (symbol name).operandChars ++ rest =
          "<i>".toList ++ name.letter :: ("</i>".toList ++ rest) := rfl
    rw [htext, htext] at h
    injection List.append_cancel_left h with hletter hclosing
    obtain rfl : name = otherName := by
      rw [← Option.some_inj, ← name.ofLetter?_letter, hletter, otherName.ofLetter?_letter]
    exact ⟨.symbol name, List.append_cancel_left hclosing⟩

/-- The text of an operation in parentheses tells what it looks like. -/
theorem tellsCore_arithmetic {operator : Operator} (hop : operator ≠ .pow) {left right : Expr}
    (hliterals : (binary operator left right).LiteralConstants)
    (h : TellsWhole (binary operator left right)) : TellsCore (binary operator left right) := by
  intro other hother hotherLiterals rest following hrest hfollowing heq
  cases sameKind_of_append_eq (.arithmetic hop left right) hother hliterals hotherLiterals heq with
  | arithmetic _ hotherOp _ _ otherLeft otherRight =>
    rw [operandChars_arithmetic hop, operandChars_arithmetic hotherOp, parenthesize_append,
      parenthesize_append] at heq
    obtain ⟨hsame, hend⟩ := h _ hotherLiterals _ _ (endsWhole_closeParen _)
      (endsWhole_closeParen _) (List.cons.inj heq).2
    exact ⟨hsame, (List.cons.inj hend).2⟩

/-- The text of a call tells the function and what the argument looks like. -/
theorem tellsCore_call (function : Function) {argument : Expr}
    (hliterals : argument.LiteralConstants) (h : TellsWhole argument) :
    TellsCore (call function argument) := by
  intro other hother hotherLiterals rest following hrest hfollowing heq
  cases sameKind_of_append_eq (.call function argument) hother hliterals hotherLiterals heq with
  | call _ _ otherArgument =>
    have htext (argument : Expr) (rest : List Char) :
        (call function argument).operandChars ++ rest =
          function.name.toList ++ '(' :: (argument.chars .html ++ ')' :: rest) := by
      show function.name.toList ++ parenthesize (argument.chars .html) ++ rest = _
      rw [List.append_assoc, parenthesize_append]
    rw [htext, htext] at heq
    injection List.append_cancel_left heq with _ heq
    obtain ⟨hsame, hend⟩ := h otherArgument hotherLiterals _ _ (endsWhole_closeParen _)
      (endsWhole_closeParen _) heq
    exact ⟨.call function hsame, (List.cons.inj hend).2⟩

/-- The text of an expression whose constants are literals tells what it looks like, and so do the
texts of its parts. -/
theorem determined {e : Expr} (hliterals : e.LiteralConstants) : Determined e := by
  -- only sums, differences, products and quotients have another text where they are operands
  have hparts {e : Expr} (hliterals : e.LiteralConstants) (hkind : e.isArithmetic = false)
      (hcore : TellsCore e.core) (hexponents : ∀ exponent ∈ e.exponents, TellsOperand exponent) :
      Determined e :=
    ⟨(tellsOperand_of_parts hliterals hcore hexponents).tellsWhole hkind, hcore, hexponents⟩
  have hnone : ∀ exponent ∈ ([] : List Expr), TellsOperand exponent := List.forall_mem_nil _
  induction e with
  | constant value places => exact hparts hliterals rfl (tellsCore_constant hliterals) hnone
  | symbol name => exact hparts hliterals rfl (tellsCore_symbol name) hnone
  | neg operand ih =>
    have hoperand := ih hliterals
    exact hparts hliterals rfl hoperand.core hoperand.exponents
  | binary operator left right ihleft ihright =>
    have hleft := ihleft hliterals.1
    have hright := (ihright hliterals.2).tellsOperand hliterals.2
    by_cases hop : operator = .pow
    · subst hop
      refine hparts hliterals rfl hleft.core fun exponent hmem ↦ ?_
      rcases List.mem_append.1 hmem with hmem | hmem
      · exact hleft.exponents exponent hmem
      · rw [List.mem_singleton.1 hmem]
        exact hright
    · have hwhole := tellsWhole_arithmetic hop (hleft.tellsOperand hliterals.1) hright
      obtain ⟨-, hself, hexponents⟩ := (IsCore.arithmetic hop left right).parts
      refine ⟨hwhole, ?_, ?_⟩
      · rw [hself]
        exact tellsCore_arithmetic hop hliterals hwhole
      · rw [hexponents]
        exact hnone
  | call function argument ih =>
    exact hparts hliterals rfl (tellsCore_call function hliterals (ih hliterals).whole) hnone

/-- Two expressions have the same rich text exactly if they look the same. -/
theorem chars_html_eq_iff {e other : Expr} (hliterals : e.LiteralConstants)
    (hother : other.LiteralConstants) : e.chars .html = other.chars .html ↔ e.LooksSame other := by
  constructor
  · intro h
    refine ((determined hliterals).whole other hother [] [] endsWhole_nil endsWhole_nil ?_).1
    rw [h]
  · exact LooksSame.chars_eq

end Expr

end Nabla
