import Mathlib.Data.List.Chain
import Nabla.Formula.LexemeReader
import Nabla.Proofs.Decimal.Literal
import Nabla.Proofs.Formula.Layout

/-!
# Spelling

Texts that are put together from known pieces: spaces, symbols, literals, operators, parentheses and
function names. `lexFrom_spell` gives the lexemes of such a text, whatever the pieces are, provided
that no two of them run together (`Legible`).
-/

namespace Nabla

/-- Characters of one byte each take as many bytes as there are characters. -/
theorem Text.byteLength_eq_length {text : List Char} (h : ∀ c ∈ text, c.utf8Size = 1) :
    byteLength text = text.length := by
  induction text with
  | nil => rfl
  | cons c rest ih =>
    obtain ⟨hfirst, hrest⟩ := List.forall_mem_cons.1 h
    rw [byteLength, hfirst, ih hrest, List.length_cons, Nat.add_comm]

/-- The characters at the start of a text that have a property. -/
theorem Text.take_length_takeWhile (p : Char → Bool) (text : List Char) :
    text.take (text.takeWhile p).length = text.takeWhile p :=
  (List.prefix_iff_eq_take.1 (List.takeWhile_prefix _)).symm

/-- What is behind the longest front of admissible characters. -/
theorem Text.drop_length_takeWhile (p : Char → Bool) (text : List Char) :
    text.drop (text.takeWhile p).length = text.dropWhile p := by
  have hsplit := List.take_append_drop (text.takeWhile p).length text
  rw [take_length_takeWhile] at hsplit
  exact List.append_cancel_left (hsplit.trans List.takeWhile_append_dropWhile.symm)

end Nabla

namespace Nabla.Formula

open Decimal (Literal)

/-! ### Pieces -/

/-- A lexeme with a fixed text. -/
inductive Mark where
  | openParen
  | closeParen
  | operator (op : Operator)
  | negative
  | sine
  | cosine
deriving DecidableEq

namespace Mark

/-- The kind of lexeme that a mark is. -/
def kind : Mark → Lexeme.Kind
  | openParen => .openParen
  | closeParen => .closeParen
  | operator op => op.lexemeKind
  | negative => .negative
  | sine => .sine
  | cosine => .cosine

/-- The first character of a mark. -/
def first : Mark → Char
  | openParen => '('
  | closeParen => ')'
  | operator op => op.character
  | negative => '-'
  | sine => 's'
  | cosine => 'c'

/-- The characters of a mark after the first one. -/
def rest : Mark → List Char
  | sine => ['i', 'n']
  | cosine => ['o', 's']
  | _ => []

end Mark

/-- A part of a text. -/
inductive Piece (mode : Mode) where
  | space
  | symbol (name : Symbol) (allowed : mode.allows name = true)
  | number (literal : Literal)
  | mark (written : Mark)

variable {mode : Mode}

namespace Piece

/-- The first character of a piece. -/
def first : Piece mode → Char
  | space => ' '
  | symbol name _ => name.letter
  | number literal => literal.first
  | mark written => written.first

/-- The characters of a piece after the first one. -/
def rest : Piece mode → List Char
  | space => []
  | symbol _ _ => []
  | number literal => literal.rest
  | mark written => written.rest

/-- The characters of a piece. -/
def text (piece : Piece mode) : List Char := piece.first :: piece.rest

/-- The kind of lexeme that a piece is. A space is none. -/
def kind? : Piece mode → Option Lexeme.Kind
  | space => none
  | symbol name _ => some (.symbol name)
  | number literal => some (.number literal.numeral)
  | mark written => some written.kind

/-- Whether the piece after a piece leaves it as it is. A subtraction needs a space after it and a
negation must not have one, and the digits of two literals would run together. -/
def FitsBefore : Piece mode → Option (Piece mode) → Prop
  | mark (.operator .sub), next => next = some space
  | mark .negative, next => next ≠ some space
  | number _, next => ∀ literal, next ≠ some (number literal)
  | _, _ => True

/-- A piece without a lexeme is a space. -/
theorem eq_space_of_kind?_eq_none {piece : Piece mode} (h : piece.kind? = none) :
    piece = space := by
  cases piece with
  | space => rfl
  | symbol name allowed => cases h
  | number literal => cases h
  | mark written => cases h

/-- No piece but a space begins with one. -/
theorem first_eq_space_iff (piece : Piece mode) : piece.first = ' ' ↔ piece = space := by
  cases piece with
  | space => simp [first]
  | symbol name allowed => cases name <;> simp [first, Symbol.letter]
  | number literal => simp [first, Literal.first_ne]
  | mark written =>
    cases written with
    | operator op => cases op <;> simp [first, Mark.first, Operator.character]
    | _ => simp [first, Mark.first]

/-- Only a literal begins with a character of a number. -/
theorem isNumeralChar_first {piece : Piece mode} (h : ∀ literal, piece ≠ number literal) :
    Decimal.isNumeralChar piece.first = false := by
  cases piece with
  | space => rfl
  | symbol name allowed => cases name <;> rfl
  | number literal => exact absurd rfl (h literal)
  | mark written =>
    cases written with
    | operator op => cases op <;> rfl
    | _ => rfl

end Piece

/-- A mark is a lexeme of its own. -/
theorem filterMap_kind?_mark (written : Mark) (pieces : List (Piece mode)) :
    (.mark written :: pieces).filterMap Piece.kind? =
      written.kind :: pieces.filterMap Piece.kind? := rfl

/-- A space is no lexeme. -/
theorem filterMap_kind?_space (pieces : List (Piece mode)) :
    (.space :: pieces).filterMap Piece.kind? = pieces.filterMap Piece.kind? := rfl

/-- The text of pieces. -/
def spell (pieces : List (Piece mode)) : List Char := pieces.flatMap Piece.text

/-- The text of pieces begins with the first character of the first piece. -/
theorem spell_cons (piece : Piece mode) (pieces : List (Piece mode)) :
    spell (piece :: pieces) = piece.first :: (piece.rest ++ spell pieces) := rfl

/-- The text of two lists of pieces, one behind the other. -/
theorem spell_append (front back : List (Piece mode)) :
    spell (front ++ back) = spell front ++ spell back := List.flatMap_append

/-- The first character of the text of pieces. -/
theorem head?_spell (pieces : List (Piece mode)) :
    (spell pieces).head? = pieces.head?.map Piece.first := by
  cases pieces <;> rfl

/-- The text begins with a space if the first piece is one. -/
theorem head?_spell_eq_space_iff (pieces : List (Piece mode)) :
    (spell pieces).head? = some ' ' ↔ pieces.head? = some .space := by
  rw [head?_spell]
  cases pieces with
  | nil => exact ⟨nofun, nofun⟩
  | cons piece rest =>
    rw [List.head?_cons, Option.map_some, Option.some_inj, Option.some_inj]
    exact piece.first_eq_space_iff

/-- No two pieces of a text run together. -/
def Legible : List (Piece mode) → Prop
  | [] => True
  | piece :: rest => piece.FitsBefore rest.head? ∧ Legible rest

/-- The lexemes of pieces from a byte position on. -/
def lexemesAt (position : Nat) : List (Piece mode) → List Lexeme
  | [] => []
  | piece :: rest =>
      let span := Text.Span.ofChars position piece.text
      match piece.kind? with
      | none => lexemesAt span.stop rest
      | some kind => ⟨kind, position, span, false⟩ :: lexemesAt span.stop rest

/-- The lexemes of pieces have the kinds of the pieces. -/
theorem map_kind_lexemesAt (position : Nat) (pieces : List (Piece mode)) :
    (lexemesAt position pieces).map Lexeme.kind = pieces.filterMap Piece.kind? := by
  induction pieces generalizing position with
  | nil => rfl
  | cons piece rest ih =>
    rw [lexemesAt, List.filterMap_cons]
    cases piece.kind? with
    | none => exact ih _
    | some kind => exact congrArg (kind :: ·) (ih _)

/-! ### Tokens of a text -/

/-- The first token and the tokens of the rest of the text. -/
theorem Token.scanFrom_cons {c : Char} {rest : List Char} {kind : Token.Kind} {count : Nat}
    (h : Token.first c rest = (kind, count)) (position : Nat) :
    Token.scanFrom position (c :: rest) =
      ⟨kind, c :: rest.take count, .ofChars position (c :: rest.take count)⟩ ::
        Token.scanFrom (Text.Span.ofChars position (c :: rest.take count)).stop
          (rest.drop count) := by
  rw [scanFrom, h]

/-- A single character is no run of spaces. -/
theorem Token.singleKind_ne_spaces (c : Char) : singleKind c ≠ .spaces := by
  unfold singleKind
  split
  all_goals first
    | exact Token.Kind.noConfusion
    | split <;> exact Token.Kind.noConfusion

/-- Tokens start with spaces if their text does. -/
theorem startsWithSpaces_scanFrom (position : Nat) (text : List Char) :
    startsWithSpaces (Token.scanFrom position text) = (text.head? == some ' ') := by
  cases text with
  | nil =>
    rw [Token.scanFrom]
    rfl
  | cons c rest =>
    rw [Token.scanFrom_cons rfl]
    show ((Token.first c rest).1 == .spaces) = (some c == some ' ')
    by_cases hspace : c = ' '
    · subst hspace
      rfl
    · have hkind : (Token.first c rest).1 ≠ .spaces := by
        unfold Token.first
        rw [if_neg hspace]
        split
        · exact Token.Kind.noConfusion
        · split
          · exact Token.Kind.noConfusion
          · split
            · exact Token.Kind.noConfusion
            · exact Token.singleKind_ne_spaces c
      rw [beq_eq_false_iff_ne.2 hkind, beq_eq_false_iff_ne.2]
      exact fun heq ↦ hspace (Option.some.inj heq)

/-- The lexemes of a text that begins at a byte position, before implicit multiplications are
inserted, and the first fault. -/
def lexFrom (mode : Mode) (position : Nat) (text : List Char) : List Lexeme × Option Fault :=
  classifyAll mode (Token.scanFrom position text)

/-- A first token that is a lexeme. -/
theorem lexFrom_cons {c : Char} {rest : List Char} {tokenKind : Token.Kind} {count position : Nat}
    {kind : Lexeme.Kind} (hfirst : Token.first c rest = (tokenKind, count))
    (hkind : classify mode
      ⟨tokenKind, c :: rest.take count, .ofChars position (c :: rest.take count)⟩
      ((rest.drop count).head? == some ' ') = .ok (some kind)) :
    lexFrom mode position (c :: rest) =
      (lexFrom mode (Text.Span.ofChars position (c :: rest.take count)).stop
        (rest.drop count)).map
          (⟨kind, position, .ofChars position (c :: rest.take count), false⟩ :: ·) id := by
  rw [lexFrom, Token.scanFrom_cons hfirst, classifyAll, startsWithSpaces_scanFrom, hkind]
  rfl

/-- A run of spaces in front of a text is one token. -/
theorem lexFrom_spaces (position : Nat) (text : List Char) :
    lexFrom mode position (' ' :: text) =
      lexFrom mode (position + ((text.takeWhile (· == ' ')).length + 1))
        (text.drop (text.takeWhile (· == ' ')).length) := by
  have hlength : Text.byteLength (' ' :: text.takeWhile (· == ' ')) =
      (text.takeWhile (· == ' ')).length + 1 := by
    refine Text.byteLength_eq_length (List.forall_mem_cons.2 ⟨rfl, fun c hc ↦ ?_⟩)
    have hspace : (c == ' ') = true := List.all_eq_true.1 List.all_takeWhile c hc
    rw [eq_of_beq hspace]
    rfl
  have hfirst : Token.first ' ' text = (.spaces, (text.takeWhile (· == ' ')).length) := if_pos rfl
  rw [lexFrom, Token.scanFrom_cons hfirst, classifyAll, Text.take_length_takeWhile]
  show classifyAll mode (Token.scanFrom (position + Text.byteLength _) _) = _
  rw [hlength]
  rfl

/-- A space in front of a text is skipped. -/
theorem lexFrom_space (position : Nat) (text : List Char) :
    lexFrom mode position (' ' :: text) = lexFrom mode (position + 1) text := by
  rw [lexFrom_spaces]
  cases text with
  | nil => rfl
  | cons c rest =>
    by_cases hspace : c = ' '
    · subst hspace
      rw [lexFrom_spaces, List.takeWhile_cons_of_pos rfl, List.length_cons, List.drop_succ_cons]
      congr 1
      omega
    · rw [List.takeWhile_cons_of_neg (by simpa using hspace)]
      rfl

/-- A text has no character of a number in front unless a literal is. -/
theorem takeWhile_isNumeralChar_spell {pieces : List (Piece mode)}
    (h : ∀ literal, pieces.head? ≠ some (.number literal)) :
    (spell pieces).takeWhile Decimal.isNumeralChar = [] := by
  cases pieces with
  | nil => rfl
  | cons next others =>
    have hnext := Piece.isNumeralChar_first fun literal heq ↦ h literal (congrArg some heq)
    rw [spell_cons, List.takeWhile_cons_of_neg]
    rw [hnext]
    exact Bool.false_ne_true

/-- A literal is one token if no further character of a number comes after it. -/
theorem Token.first_literal (literal : Literal) {rest : List Char}
    (h : rest.takeWhile Decimal.isNumeralChar = []) :
    Token.first literal.first (literal.rest ++ rest) = (.numeral, literal.rest.length) := by
  have hwhile : (literal.rest ++ rest).takeWhile Decimal.isNumeralChar = literal.rest := by
    rw [List.takeWhile_append_of_pos literal.isNumeralChar_rest, h, List.append_nil]
  rw [Token.first, if_neg (Literal.first_ne (by decide)), if_pos literal.isDigit_first, hwhile]

/-- A literal is a number. -/
theorem classify_literal (literal : Literal) (span : Text.Span) (beforeSpace : Bool) :
    classify mode ⟨.numeral, literal.text, span⟩ beforeSpace =
      .ok (some (.number literal.numeral)) := by
  show (numeralKind literal.text).map some = _
  rw [numeralKind, literal.ofChars?_text]
  rfl

/-- The lexemes of a piece and the text after it. -/
theorem lexFrom_piece {piece : Piece mode} {pieces : List (Piece mode)}
    (h : piece.FitsBefore pieces.head?) {kind : Lexeme.Kind} (hkind : piece.kind? = some kind)
    (position : Nat) :
    lexFrom mode position (spell (piece :: pieces)) =
      (lexFrom mode (Text.Span.ofChars position piece.text).stop (spell pieces)).map
        (⟨kind, position, .ofChars position piece.text, false⟩ :: ·) id := by
  rw [spell_cons]
  -- most pieces are one character, and a token on their own whatever comes next
  have hsingle (hrest : piece.rest = [])
      (hfirst : Token.first piece.first (spell pieces) = (Token.singleKind piece.first, 0))
      (hclass : classify mode
        ⟨Token.singleKind piece.first, piece.text, .ofChars position piece.text⟩
        ((spell pieces).head? == some ' ') = .ok (some kind)) :
      lexFrom mode position (piece.first :: (piece.rest ++ spell pieces)) =
        (lexFrom mode (Text.Span.ofChars position piece.text).stop (spell pieces)).map
          (⟨kind, position, .ofChars position piece.text, false⟩ :: ·) id := by
    rw [Piece.text, hrest] at hclass ⊢
    exact lexFrom_cons hfirst hclass
  cases piece with
  | space => cases hkind
  | symbol name allowed =>
    cases hkind
    refine hsingle rfl (by cases name <;> rfl) ?_
    cases name <;> simp [Piece.first, Symbol.letter, Token.singleKind, classify, symbolKind,
      allowed, Except.map]
  | number literal =>
    cases hkind
    have hfirst := Token.first_literal literal (takeWhile_isNumeralChar_spell h)
    have htake : (literal.rest ++ spell pieces).take literal.rest.length = literal.rest :=
      List.take_left
    have hdrop : (literal.rest ++ spell pieces).drop literal.rest.length = spell pieces :=
      List.drop_left
    rw [Piece.first, Piece.rest,
      lexFrom_cons hfirst (by rw [htake]; exact classify_literal literal _ _), htake, hdrop]
    rfl
  | mark written =>
    cases hkind
    cases written with
    | openParen => exact hsingle rfl rfl rfl
    | closeParen => exact hsingle rfl rfl rfl
    | sine => exact lexFrom_cons rfl rfl
    | cosine => exact lexFrom_cons rfl rfl
    -- a `-` subtracts in front of a space only
    | negative =>
      have hspace : ((spell pieces).head? == some ' ') = false := by
        rw [beq_eq_false_iff_ne, Ne, head?_spell_eq_space_iff]
        exact h
      refine hsingle rfl rfl ?_
      rw [hspace]
      rfl
    | operator op =>
      cases op with
      | sub =>
        have hspace : ((spell pieces).head? == some ' ') = true := by
          rw [beq_iff_eq, head?_spell_eq_space_iff]
          exact h
        refine hsingle rfl rfl ?_
        rw [hspace]
        rfl
      | add => exact hsingle rfl rfl rfl
      | mul => exact hsingle rfl rfl rfl
      | div => exact hsingle rfl rfl rfl
      | pow => exact hsingle rfl rfl rfl

/-- The lexemes of a text whose pieces do not run together. -/
theorem lexFrom_spell {pieces : List (Piece mode)} (h : Legible pieces) (position : Nat) :
    lexFrom mode position (spell pieces) = (lexemesAt position pieces, none) := by
  induction pieces generalizing position with
  | nil =>
    show classifyAll mode (Token.scanFrom position []) = _
    rw [Token.scanFrom]
    rfl
  | cons piece rest ih =>
    obtain ⟨hfits, hrest⟩ := h
    cases hkind : piece.kind? with
    | none =>
      obtain rfl := Piece.eq_space_of_kind?_eq_none hkind
      exact (lexFrom_space position (spell rest)).trans (ih hrest (position + 1))
    | some kind =>
      rw [lexFrom_piece hfits hkind, ih hrest, lexemesAt, hkind]
      rfl

/-! ### Implicit multiplications -/

/-- Nothing is inserted between lexemes that are not joined. -/
theorem insertTimes_eq {lexemes : List Lexeme}
    (h : (lexemes.map Lexeme.kind).IsChain fun left right ↦ joins left right = false) :
    insertTimes 0 lexemes = lexemes := by
  induction lexemes with
  | nil => rfl
  | cons lexeme rest ih =>
    cases rest with
    | nil => rfl
    | cons next others =>
      obtain ⟨hjoins, hrest⟩ := List.isChain_cons_cons.1 h
      rw [insertTimes, hjoins, ih hrest]
      rfl

/-- The lexemes of legible pieces. -/
theorem lex_spell {pieces : List (Piece mode)} (h : Legible pieces) :
    lex mode (spell pieces) = ⟨insertTimes 0 (lexemesAt 0 pieces), none⟩ := by
  have hlexed : classifyAll mode (Token.scan (spell pieces)) = (lexemesAt 0 pieces, none) :=
    lexFrom_spell h 0
  rw [lex, hlexed]

/-- The lexemes of a text whose pieces neither run together nor are multiplied without an
operator. -/
theorem outcome_lexRecorded_spell {pieces : List (Piece mode)} (h : Legible pieces)
    (hjoins : (pieces.filterMap Piece.kind?).IsChain fun left right ↦ joins left right = false) :
    (lexRecorded mode (spell pieces)).outcome = .ok (lexemesAt 0 pieces) := by
  have hinsert : insertTimes 0 (lexemesAt 0 pieces) = lexemesAt 0 pieces :=
    insertTimes_eq (by rwa [map_kind_lexemesAt])
  show (lex mode (spell pieces)).toExcept = _
  rw [lex_spell h, hinsert]
  rfl

end Nabla.Formula
