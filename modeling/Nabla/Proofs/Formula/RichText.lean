import Nabla.Proofs.Expr.RichText
import Nabla.Proofs.Formula.PlainText

/-!
# Rich text of expressions that were read

Two expressions that were read have the same rich text exactly if they look the same. Among those
that the plain text tells apart, too, they are the same: no negation stands directly in front of a
power, and every constant is the number nearest to its text.
-/

namespace Nabla.Expr

open Decimal (Numeral)
open Formula (negate)

/-- The finite constants of what is read are written as literals. -/
theorem literalConstants_of_readable {mode : Mode} {e : Expr} (hreadable : e.Readable mode)
    (hfinite : e.FiniteConstants) : e.LiteralConstants := by
  induction e with
  | constant value places => exact exists_literal hreadable hfinite
  | symbol name => trivial
  | neg operand ih => exact ih hreadable hfinite
  | binary operator left right ihleft ihright =>
    exact ⟨ihleft hreadable.1 hfinite.1, ihright hreadable.2 hfinite.2⟩
  | call function argument ih => exact ih hreadable.2 hfinite

/-- Without a negation directly in front of a power there is none to move. -/
theorem ReadsBack.sinkUnder_eq {e : Expr} (h : e.ReadsBack) {count : Nat}
    (hcount : count = 0 ∨ e.isPower = false) : e.sinkUnder count = negate count e := by
  -- a count above zero never reaches a power, which is what reading back is about
  induction e generalizing count with
  | constant value places => rfl
  | symbol name => rfl
  | neg operand ih =>
    have hpower : operand.isPower = false := h.1
    show operand.sinkUnder (count + 1) = negate count (neg operand)
    rw [ih h.2 (.inr hpower)]
    clear hcount ih
    induction count with
    | zero => rfl
    | succ count ih => exact congrArg neg ih
  | binary operator left right ihleft ihright =>
    have hleft : left.sinkUnder 0 = left := ihleft h.1 (.inl rfl)
    have hright : right.sinkUnder 0 = right := ihright h.2 (.inl rfl)
    cases operator with
    | pow =>
      rcases hcount with rfl | hpower
      · show binary .pow (left.sinkUnder 0) (right.sinkUnder 0) = _
        rw [hleft, hright]
        rfl
      · cases hpower
    | _ =>
      show negate count (binary _ (left.sinkUnder 0) (right.sinkUnder 0)) = _
      rw [hleft, hright]
  | call function argument ih =>
    have hargument : argument.sinkUnder 0 = argument := ih h (.inl rfl)
    show negate count (call function (argument.sinkUnder 0)) = _
    rw [hargument]

/-- Expressions that look alike are the same if their constants are read back. -/
theorem LooksLike.eq_of_readsBack {e other : Expr} (h : e.LooksLike other) (hreads : e.ReadsBack)
    (hother : other.ReadsBack) : e = other := by
  induction h with
  | @constant value otherValue places otherPlaces htext =>
    have hread : Numeral.ofChars? (Decimal.fixedChars value places) = some ⟨value, places⟩ := hreads
    have hotherRead : Numeral.ofChars? (Decimal.fixedChars otherValue otherPlaces) =
      some ⟨otherValue, otherPlaces⟩ := hother
    rw [htext, hotherRead] at hread
    cases hread
    rfl
  | symbol name => rfl
  | neg h ih => rw [ih hreads.2 hother.2]
  | binary operator hleft hright ihleft ihright =>
    rw [ihleft hreads.1 hother.1, ihright hreads.2 hother.2]
  | call function h ih => rw [ih hreads hother]

/-- Expressions that look the same and are read back are the same. -/
theorem LooksSame.eq_of_readsBack {e other : Expr} (h : e.LooksSame other) (hreads : e.ReadsBack)
    (hother : other.ReadsBack) : e = other := by
  have hsink : e.sinkNegations = e := hreads.sinkUnder_eq (.inl rfl)
  have hotherSink : other.sinkNegations = other := hother.sinkUnder_eq (.inl rfl)
  unfold LooksSame at h
  rw [hsink, hotherSink] at h
  exact h.eq_of_readsBack hreads hother

end Nabla.Expr

namespace Nabla.Formula

open Decimal (Literal Numeral)

variable {mode : Mode}

/-- A text that is spelled as an operand, or as a power of two operands, is read as its tree. -/
theorem parse_of_spelled_tight {text : List Char} (tight : Tight)
    (h : Spelled mode text tight.kinds) : Reader.token.parse mode text = .ok tight.tree := by
  rw [← tight.kinds_sentence] at h
  rw [parse_of_spelled tight.sentence h, tight.tree_sentence]

/-- Two expressions that were read have the same rich text exactly if they look the same: they are
the same up to the texts of their constants, once every negation in front of a power is moved in
front of its base. If no negation stands directly in front of a power in either of them and every
constant is the number nearest to its text, they are the same and have the same values. -/
theorem chars_html_eq_iff_of_parse {text other : List Char} {e found : Expr}
    (hparse : Reader.token.parse mode text = .ok e)
    (hother : Reader.token.parse mode other = .ok found) (hfinite : e.FiniteConstants)
    (hfound : found.FiniteConstants) :
    (e.chars .html = found.chars .html ↔ e.LooksSame found) ∧
      (e.ReadsBack → found.ReadsBack → e.chars .html = found.chars .html →
        e = found ∧ ∀ point, e.eval point = found.eval point) := by
  have hliterals := Expr.literalConstants_of_readable (readable_of_readLexemes hparse) hfinite
  have hotherLiterals := Expr.literalConstants_of_readable (readable_of_readLexemes hother) hfound
  have hiff := Expr.chars_html_eq_iff hliterals hotherLiterals
  refine ⟨hiff, fun hreads hfoundReads htext ↦ ?_⟩
  obtain rfl := (hiff.1 htext).eq_of_readsBack hreads hfoundReads
  exact ⟨rfl, fun _ ↦ rfl⟩

/-- The texts `-x^2` and `(-x)^2` are read as expressions with the same rich text, and have the same
values. -/
theorem chars_html_eq_iff_squared_negation :
    ∃ e found : Expr, Reader.token.parse .multiVariable "-x^2".toList = .ok e ∧
      Reader.token.parse .multiVariable "(-x)^2".toList = .ok found ∧ e.FiniteConstants ∧
      found.FiniteConstants ∧ e.ReadsBack ∧ found.ReadsBack ∧
      e.chars .html = "-<i>x</i><sup>2</sup>".toList ∧
      found.chars .html = "-<i>x</i><sup>2</sup>".toList ∧ e.LooksSame found ∧ e = found ∧
      ∀ point, e.eval point = found.eval point := by
  let literal : Literal := ⟨'2', [], rfl, List.all_eq_true.1 rfl, by decide⟩
  let x : Prefixed := .value (.symbol .x) (.symbol .x) rfl
  let two : Prefixed := .value (.number literal.numeral) (.constant 2 0) rfl
  let negation : Tight := .alone (.prefixed (.negated x))
  have hx : Spelled .multiVariable ['x'] x.kinds := .leaf (.symbol .x rfl) rfl rfl
  have htwo : Spelled .multiVariable literal.text two.kinds := .leaf (.number literal) rfl rfl
  let e : Expr := .binary .pow (.neg (.symbol .x)) (.constant 2 0)
  have hparse : Reader.token.parse .multiVariable "-x^2".toList = .ok e :=
    parse_of_spelled_tight (.power (.prefixed (.negated x)) (.prefixed two))
      (hx.negative.power htwo)
  have hother : Reader.token.parse .multiVariable "(-x)^2".toList = .ok e := by
    have hgroup : (Operand.group negation.sentence).tree = .neg (.symbol .x) :=
      negation.tree_sentence
    have hread := parse_of_spelled_tight (.power (.group negation.sentence) (.prefixed two))
      (hx.negative.parenthesize.power htwo)
    rwa [Tight.tree, hgroup] at hread
  have hfinite : e.FiniteConstants := ⟨trivial, _, _, _, rfl⟩
  have htwoReads : Numeral.ofChars? (Decimal.fixedChars 2 0) = some ⟨2, 0⟩ := by decide +kernel
  have hreads : e.ReadsBack := ⟨⟨rfl, trivial⟩, htwoReads⟩
  obtain ⟨hiff, hsame⟩ := chars_html_eq_iff_of_parse hparse hother hfinite hfinite
  obtain ⟨heq, hvalues⟩ := hsame hreads hreads rfl
  exact ⟨e, e, hparse, hother, hfinite, hfinite, hreads, hreads, rfl, rfl, hiff.1 rfl, heq, hvalues⟩

/-- The texts `-(x^2)` and `(-x)^2` are read as expressions with the same rich text, but with other
values. -/
theorem chars_html_negated_square :
    let e : Expr := .neg (.binary .pow (.symbol .x) (.constant 2 0))
    let found : Expr := .binary .pow (.neg (.symbol .x)) (.constant 2 0)
    Reader.token.parse .multiVariable "-(x^2)".toList = .ok e ∧
      Reader.token.parse .multiVariable "(-x)^2".toList = .ok found ∧ e.FiniteConstants ∧
      found.FiniteConstants ∧ e.chars .html = found.chars .html ∧
      e.eval ⟨3, 0, 0⟩ ≠ found.eval ⟨3, 0, 0⟩ := by
  intro e found
  let literal : Literal := ⟨'2', [], rfl, List.all_eq_true.1 rfl, by decide⟩
  let x : Prefixed := .value (.symbol .x) (.symbol .x) rfl
  let two : Prefixed := .value (.number literal.numeral) (.constant 2 0) rfl
  let negation : Tight := .alone (.prefixed (.negated x))
  let square : Tight := .power (.prefixed x) (.prefixed two)
  have hx : Spelled .multiVariable ['x'] x.kinds := .leaf (.symbol .x rfl) rfl rfl
  have htwo : Spelled .multiVariable literal.text two.kinds := .leaf (.number literal) rfl rfl
  refine ⟨?_, ?_, ⟨trivial, _, _, _, rfl⟩, ⟨trivial, _, _, _, rfl⟩, rfl, by decide⟩
  · have htree : (Prefixed.owned .negation square.sentence).tree = e :=
      congrArg Expr.neg square.tree_sentence
    rw [← htree]
    exact parse_of_spelled_tight (.alone (.prefixed (.owned .negation square.sentence)))
      (hx.power htwo).parenthesize.negative
  · have hgroup : (Operand.group negation.sentence).tree = .neg (.symbol .x) :=
      negation.tree_sentence
    have hread := parse_of_spelled_tight (.power (.group negation.sentence) (.prefixed two))
      (hx.negative.parenthesize.power htwo)
    rwa [Tight.tree, hgroup] at hread

end Nabla.Formula
