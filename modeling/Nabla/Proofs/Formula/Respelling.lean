import Nabla.Proofs.Formula.Spelling

/-!
# Texts without lexical faults are spelled

A text whose lexemes are read without a fault is the text of legible pieces (`exists_pieces`), and
its lexemes are those of the pieces. So what is said about lexemes of pieces holds of every such
text: pieces can be put in, or put around it, without a look at the tokens again.
-/

namespace Nabla

namespace Decimal

/-- A numeral that is read has at most one point. -/
theorem count_point_le_one {text : List Char} {numeral : Numeral}
    (h : Numeral.ofChars? text = some numeral) : text.count '.' ≤ 1 := by
  unfold Numeral.ofChars? at h
  have hfraction : ((text.dropWhile (· != '.')).drop 1).contains '.' = false := by
    by_contra hcontains
    rw [Bool.not_eq_false] at hcontains
    simp only [hcontains, if_true] at h
    cases h
  have hinteger : (text.takeWhile (· != '.')).count '.' = 0 := by
    refine List.count_eq_zero.2 fun hpoint ↦ ?_
    have hne := List.all_eq_true.1 (List.all_takeWhile (p := (· != '.')) (l := text)) '.' hpoint
    simp at hne
  rw [← List.takeWhile_append_dropWhile (p := (· != '.')) (l := text), List.count_append, hinteger]
  cases hdrop : text.dropWhile (· != '.') with
  | nil => simp
  | cons c fraction =>
    rw [hdrop] at hfraction
    have hnone : fraction.count '.' = 0 := by
      refine List.count_eq_zero.2 ?_
      simpa using hfraction
    rw [List.count_cons, hnone]
    split <;> omega

end Decimal

namespace Formula

open Decimal (Literal Numeral)

variable {mode : Mode}

/-- The first token of a text without a fault stands for a lexeme or for none, and the text after it
is without a fault. -/
theorem exists_of_lexFrom_cons {c : Char} {rest : List Char} {tokenKind : Token.Kind}
    {count position : Nat} {lexemes : List Lexeme}
    (hfirst : Token.first c rest = (tokenKind, count))
    (h : lexFrom mode position (c :: rest) = (lexemes, none)) :
    ∃ kind? next others,
      classify mode ⟨tokenKind, c :: rest.take count, .ofChars position (c :: rest.take count)⟩
        ((rest.drop count).head? == some ' ') = .ok kind? ∧
      lexFrom mode next (rest.drop count) = (others, none) := by
  rw [lexFrom, Token.scanFrom_cons hfirst, classifyAll, startsWithSpaces_scanFrom] at h
  split at h
  · cases h
  · rename_i hclassify
    exact ⟨none, _, lexemes, hclassify, h⟩
  · rename_i kind hclassify
    have hfault := congrArg Prod.snd h
    exact ⟨some kind, _, _, hclassify, Prod.ext rfl hfault⟩

/-- A piece in front of a text that pieces of its own spell. -/
structure Heads (piece : Piece mode) (after : List Char) : Prop where
  /-- The piece fits in front of any pieces of the text. -/
  fits : ∀ pieces : List (Piece mode), spell pieces = after → piece.FitsBefore pieces.head?
  /-- The text is without a fault. -/
  lexes : ∃ position lexemes, lexFrom mode position after = (lexemes, none)

/-- A text begins with a piece. -/
def BeginsWithPiece (mode : Mode) (text : List Char) : Prop :=
  ∃ (piece : Piece mode) (after : List Char), text = piece.text ++ after ∧ Heads piece after

section Heads

variable {c : Char} {rest : List Char} {position : Nat} {lexemes : List Lexeme}

/-- A numeral is a literal. What comes after it begins with no character of a number. -/
theorem beginsWithPiece_numeral (hdigit : c.isDigit = true)
    (hfirst : Token.first c rest =
      (.numeral, (rest.takeWhile Decimal.isNumeralChar).length))
    (h : lexFrom mode position (c :: rest) = (lexemes, none)) :
    BeginsWithPiece mode (c :: rest) := by
  obtain ⟨kind?, next, others, hclassify, hothers⟩ := exists_of_lexFrom_cons hfirst h
  rw [Text.take_length_takeWhile] at hclassify
  rw [Text.drop_length_takeWhile] at hothers
  have hnumeral : ∃ numeral,
      Numeral.ofChars? (c :: rest.takeWhile Decimal.isNumeralChar) = some numeral := by
    have hkind : (numeralKind (c :: rest.takeWhile Decimal.isNumeralChar)).map some =
        .ok kind? := hclassify
    unfold numeralKind at hkind
    split at hkind
    · exact ⟨_, ‹_›⟩
    · cases hkind
  obtain ⟨numeral, hnumeral⟩ := hnumeral
  have hcount := Decimal.count_point_le_one hnumeral
  have hpoint : c ≠ '.' := by
    rintro rfl
    cases hdigit
  rw [List.count_cons_of_ne hpoint] at hcount
  let literal : Literal := ⟨c, rest.takeWhile Decimal.isNumeralChar, hdigit,
    List.all_eq_true.1 List.all_takeWhile, hcount⟩
  refine ⟨.number literal, rest.dropWhile Decimal.isNumeralChar, ?_, ?_, next, others, hothers⟩
  · show c :: rest = (c :: rest.takeWhile Decimal.isNumeralChar) ++ _
    rw [List.cons_append, List.takeWhile_append_dropWhile]
  · intro pieces hspell other hother
    have hhead : (rest.dropWhile Decimal.isNumeralChar).head? = some other.first := by
      rw [← hspell, head?_spell, hother]
      rfl
    have hnot : Decimal.isNumeralChar other.first = false := by
      have hnone := List.head?_dropWhile_not Decimal.isNumeralChar rest
      rw [hhead] at hnone
      exact hnone
    rw [Decimal.isNumeralChar_of_isDigit other.isDigit_first] at hnot
    cases hnot

/-- A function name is a mark. -/
theorem beginsWithPiece_mark (written : Mark) {tokenKind : Token.Kind} {count : Nat}
    (hwritten : c = written.first) (hrest : rest.take count = written.rest)
    (hfits : ∀ pieces : List (Piece mode), spell pieces = rest.drop count →
      (Piece.mark written : Piece mode).FitsBefore pieces.head?)
    (hfirst : Token.first c rest = (tokenKind, count))
    (h : lexFrom mode position (c :: rest) = (lexemes, none)) :
    BeginsWithPiece mode (c :: rest) := by
  obtain ⟨kind?, next, others, hclassify, hothers⟩ := exists_of_lexFrom_cons hfirst h
  refine ⟨.mark written, rest.drop count, ?_, hfits, next, others, hothers⟩
  show c :: rest = (written.first :: written.rest) ++ _
  rw [hwritten, ← hrest, List.cons_append, List.take_append_drop]

/-- A symbol that is read is allowed. -/
theorem beginsWithPiece_symbol (name : Symbol) (hletter : c = name.letter)
    (hfirst : Token.first c rest = (Token.singleKind c, 0))
    (h : lexFrom mode position (c :: rest) = (lexemes, none)) :
    BeginsWithPiece mode (c :: rest) := by
  obtain ⟨kind?, next, others, hclassify, hothers⟩ := exists_of_lexFrom_cons hfirst h
  have hkind : (symbolKind mode name).map some = .ok kind? := by
    rw [← hclassify, hletter]
    cases name <;> rfl
  by_cases hallowed : mode.allows name = true
  · refine ⟨.symbol name hallowed, rest, ?_, fun _ _ ↦ trivial, next, others, hothers⟩
    rw [hletter]
    rfl
  · rw [symbolKind, if_neg hallowed] at hkind
    cases hkind

/-- A `-` is a subtraction in front of a space, and a negation in front of anything else. -/
theorem beginsWithPiece_minus (hfirst : Token.first '-' rest = (.minus, 0))
    (h : lexFrom mode position ('-' :: rest) = (lexemes, none)) :
    BeginsWithPiece mode ('-' :: rest) := by
  by_cases hspace : rest.head? = some ' '
  · refine beginsWithPiece_mark (.operator .sub) rfl rfl ?_ hfirst h
    rintro pieces (hspell : spell pieces = rest)
    rw [← hspell, head?_spell_eq_space_iff] at hspace
    exact hspace
  · refine beginsWithPiece_mark .negative rfl rfl ?_ hfirst h
    rintro pieces (hspell : spell pieces = rest)
    rw [← hspell, head?_spell_eq_space_iff] at hspace
    exact hspace

/-- A token of one character that stands for a lexeme is a piece. -/
theorem beginsWithPiece_single (hfirst : Token.first c rest = (Token.singleKind c, 0))
    (h : lexFrom mode position (c :: rest) = (lexemes, none)) :
    BeginsWithPiece mode (c :: rest) := by
  have hmark (written : Mark) (hwritten : c = written.first) (hrest : written.rest = [])
      (hfits : ∀ next, (Piece.mark written : Piece mode).FitsBefore next) :
      BeginsWithPiece mode (c :: rest) := by
    have htake : rest.take 0 = written.rest := hrest.symm
    exact beginsWithPiece_mark written hwritten htake (fun pieces _ ↦ hfits pieces.head?) hfirst h
  obtain ⟨kind?, next, others, hclassify, -⟩ := exists_of_lexFrom_cons hfirst h
  have hsymbol := hfirst
  generalize hsingle : Token.singleKind c = tokenKind at hclassify hfirst
  unfold Token.singleKind at hsingle
  split at hsingle
  · exact hmark (.operator .add) rfl rfl fun _ ↦ trivial
  · exact beginsWithPiece_minus hsymbol h
  · exact hmark (.operator .mul) rfl rfl fun _ ↦ trivial
  · exact hmark (.operator .div) rfl rfl fun _ ↦ trivial
  · exact hmark (.operator .pow) rfl rfl fun _ ↦ trivial
  · exact hmark .openParen rfl rfl fun _ ↦ trivial
  · exact hmark .closeParen rfl rfl fun _ ↦ trivial
  · exact beginsWithPiece_symbol .t rfl hsymbol h
  · exact beginsWithPiece_symbol .x rfl hsymbol h
  · exact beginsWithPiece_symbol .y rfl hsymbol h
  · exact beginsWithPiece_symbol .z rfl hsymbol h
  -- the other characters are faults
  · rw [← hsingle] at hclassify
    cases hclassify
  · split at hsingle <;> rw [← hsingle] at hclassify <;> cases hclassify

/-- A text without a fault begins with a piece, unless it begins with a space. -/
theorem beginsWithPiece (hspace : c ≠ ' ')
    (h : lexFrom mode position (c :: rest) = (lexemes, none)) :
    BeginsWithPiece mode (c :: rest) := by
  by_cases hdigit : c.isDigit = true
  · exact beginsWithPiece_numeral hdigit (by rw [Token.first, if_neg hspace, if_pos hdigit]) h
  · by_cases hsine : c = 's' ∧ rest.take 2 = ['i', 'n']
    · exact beginsWithPiece_mark .sine hsine.1 hsine.2 (fun _ _ ↦ trivial)
        (by rw [Token.first, if_neg hspace, if_neg hdigit, if_pos hsine]) h
    · by_cases hcosine : c = 'c' ∧ rest.take 2 = ['o', 's']
      · exact beginsWithPiece_mark .cosine hcosine.1 hcosine.2 (fun _ _ ↦ trivial)
          (by rw [Token.first, if_neg hspace, if_neg hdigit, if_neg hsine, if_pos hcosine]) h
      · exact beginsWithPiece_single
          (by rw [Token.first, if_neg hspace, if_neg hdigit, if_neg hsine, if_neg hcosine]) h

end Heads

/-- A text without a fault is the text of legible pieces. -/
theorem exists_pieces {text : List Char} {position : Nat} {lexemes : List Lexeme}
    (h : lexFrom mode position text = (lexemes, none)) :
    ∃ pieces : List (Piece mode), spell pieces = text ∧ Legible pieces := by
  match text with
  | [] => exact ⟨[], rfl, trivial⟩
  | c :: rest =>
    by_cases hspace : c = ' '
    · subst hspace
      rw [lexFrom_space] at h
      obtain ⟨pieces, rfl, hlegible⟩ := exists_pieces h
      exact ⟨.space :: pieces, rfl, trivial, hlegible⟩
    · obtain ⟨piece, after, htext, hheads⟩ := beginsWithPiece hspace h
      obtain ⟨next, others, hothers⟩ := hheads.lexes
      have hlength : after.length < (c :: rest).length := by
        rw [htext, List.length_append, Piece.text, List.length_cons]
        omega
      obtain ⟨pieces, rfl, hlegible⟩ := exists_pieces hothers
      exact ⟨piece :: pieces, htext.symm, hheads.fits pieces rfl, hlegible⟩
termination_by text.length
decreasing_by
  · exact Nat.lt_succ_self _
  · exact hlength

end Formula

end Nabla
