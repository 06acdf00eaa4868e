import Nabla.Formula.Reader
import Nabla.Proofs.Formula.FlatReading
import Nabla.Proofs.Formula.Spelling
import Nabla.Proofs.Text.Regions

/-!
# The two readers agree

Texts of spaces, parentheses, operators and leaves are in the languages of both readers, if every
`-` subtracts and no leaf comes directly after another. On such a text the reader of lexemes and the
reader of characters give the same tree or the same fault: both find the operators and leaves of the
lexemes, one at the indices of the lexemes and the other at their byte positions.
-/

namespace Nabla.Formula

open Decimal (Literal)

variable {mode : Mode}

/-! ### The shared language -/

/-- The pieces of a text that both readers understand. -/
structure Shared (pieces : List (Piece mode)) : Prop where
  /-- There is no negation and no function name. -/
  flat : ∀ piece ∈ pieces, piece ≠ .mark .negative ∧ piece ≠ .mark .sine ∧ piece ≠ .mark .cosine
  /-- Every `-` is directly followed by a space. -/
  spaced : ∀ front back, pieces = front ++ .mark (.operator .sub) :: back →
    back.head? = some .space
  /-- Spaces aside, no leaf is directly followed by a leaf. -/
  apart : (pieces.filterMap Piece.kind?).IsChain fun left right ↦
    ¬(left.isValue = true ∧ right.isValue = true)

namespace Shared

variable {piece : Piece mode} {pieces : List (Piece mode)}

/-- The rest of a shared text is shared. -/
theorem tail (h : Shared (piece :: pieces)) : Shared pieces := by
  refine ⟨fun other hother ↦ h.flat other (List.mem_cons_of_mem _ hother), ?_, ?_⟩
  · rintro front back rfl
    exact h.spaced (piece :: front) back rfl
  · have hapart := h.apart
    rw [List.filterMap_cons] at hapart
    split at hapart
    · exact hapart
    · exact hapart.of_cons

/-- No leaf comes next after a leaf. -/
theorem not_isValue (h : Shared (piece :: pieces)) {kind next : Lexeme.Kind}
    (hkind : piece.kind? = some kind) (hvalue : kind.isValue = true)
    (hnext : (pieces.filterMap Piece.kind?).head? = some next) : next.isValue = false := by
  have hapart := h.apart
  rw [List.filterMap_cons_some hkind, List.isChain_cons] at hapart
  have hboth := hapart.1 next hnext
  rw [hvalue] at hboth
  simpa using hboth

/-- The pieces of a shared text do not run together. -/
theorem legible (h : Shared pieces) : Legible pieces := by
  induction pieces with
  | nil => trivial
  | cons piece rest ih =>
    refine ⟨?_, ih h.tail⟩
    cases piece with
    | space => trivial
    | symbol name allowed => trivial
    | number literal =>
      intro other hother
      obtain ⟨others, rfl⟩ : ∃ others, rest = .number other :: others :=
        ⟨rest.tail, (List.cons_head?_tail hother).symm⟩
      have hkind : (Piece.number literal : Piece mode).kind? = some (.number literal.numeral) := rfl
      cases h.not_isValue hkind rfl rfl
    | mark written =>
      cases written with
      | negative => exact absurd rfl (h.flat _ List.mem_cons_self).1
      | operator op =>
        cases op with
        | sub => exact h.spaced [] rest rfl
        | _ => trivial
      | _ => trivial

/-- There are no functions and no signs in a shared text. -/
theorem isFlat_kind (h : Shared pieces) : ∀ kind ∈ pieces.filterMap Piece.kind?,
    kind.isFlat = true := by
  intro kind hkind
  obtain ⟨piece, hpiece, hkind⟩ := List.mem_filterMap.1 hkind
  obtain ⟨hnegative, hsine, hcosine⟩ := h.flat piece hpiece
  cases piece with
  | space => cases hkind
  | symbol name allowed =>
    cases hkind
    rfl
  | number literal =>
    cases hkind
    rfl
  | mark written =>
    cases hkind
    cases written with
    | negative => exact absurd rfl hnegative
    | sine => exact absurd rfl hsine
    | cosine => exact absurd rfl hcosine
    | operator op => cases op <;> rfl
    | _ => rfl

/-- Nothing is multiplied implicitly. -/
theorem joins (h : Shared pieces) :
    (pieces.filterMap Piece.kind?).IsChain fun left right ↦ joins left right = false := by
  refine h.apart.imp_of_mem_imp fun left right _ hright hboth ↦ ?_
  have hflat := h.isFlat_kind right hright
  have hfunction : right.isFunction = false := by
    cases right <;> first | rfl | cases hflat
  unfold Formula.joins
  rw [hfunction, Bool.or_false]
  simpa using hboth

end Shared

/-- The lexeme of a piece, and those behind it. -/
theorem lexemesAt_cons {piece : Piece mode} {kind : Lexeme.Kind} (h : piece.kind? = some kind)
    (position : Nat) (pieces : List (Piece mode)) :
    lexemesAt position (piece :: pieces) =
      ⟨kind, position, .ofChars position piece.text, false⟩ ::
        lexemesAt (position + Text.byteLength piece.text) pieces := by
  simp only [lexemesAt, h]
  rfl

/-- A piece that is a value consists of leaf characters. -/
theorem Piece.isLeafChar_of_mem_text {piece : Piece mode} {kind : Lexeme.Kind}
    (h : piece.kind? = some kind) (hvalue : kind.isValue = true) {c : Char}
    (hc : c ∈ piece.text) : isLeafChar c = true := by
  have hnumeral {c : Char} (h : Decimal.isNumeralChar c = true) : isLeafChar c = true := by
    simp only [Decimal.isNumeralChar, isLeafChar, Char.isAlphanum, Bool.or_eq_true] at h ⊢
    tauto
  cases piece with
  | space => cases h
  | symbol name allowed =>
    obtain rfl := List.mem_singleton.1 hc
    cases name <;> rfl
  | number literal =>
    refine hnumeral ?_
    rcases List.mem_cons.1 hc with rfl | hc
    · rw [first, Decimal.isNumeralChar, literal.isDigit_first]
      rfl
    · exact literal.isNumeralChar_rest c hc
  | mark written =>
    cases h
    cases written with
    | operator op => cases op <;> cases hvalue
    | _ => cases hvalue

/-! ### Operators by characters -/

section Scanning

variable (opened : List Text.Span) (position : Nat) (rest : List Char)

/-- The scan for operators passes over a leaf character. -/
theorem scanOperators_leafChar {c : Char} (h : isLeafChar c = true) :
    scanOperators opened position (c :: rest) =
      scanOperators opened (position + c.utf8Size) rest := by
  have hopen : c ≠ '(' := by
    rintro rfl
    cases h
  have hclose : c ≠ ')' := by
    rintro rfl
    cases h
  rw [scanOperators.eq_def]
  simp only [if_neg hopen, if_neg hclose, h, or_true, if_true]
  rfl

/-- An opening parenthesis is still to be closed. -/
theorem scanOperators_openParen :
    scanOperators opened position ('(' :: rest) =
      scanOperators (.ofLength position 1 :: opened) (position + 1) rest := by
  rw [scanOperators.eq_def]
  rfl

/-- A closing parenthesis closes the last one that is open. -/
theorem scanOperators_closeParen (last : Text.Span) :
    scanOperators (last :: opened) position (')' :: rest) =
      scanOperators opened (position + 1) rest := by
  rw [scanOperators.eq_def]
  rfl

/-- An operator is scanned at its place. -/
theorem scanOperators_operator (op : Operator) :
    scanOperators opened position (op.character :: rest) =
      (scanOperators opened (position + 1) rest).map
        (.ofDepth position op opened.length :: ·) := by
  rw [scanOperators.eq_def]
  cases op <;> rfl

/-- Leaf characters are passed over in the search for operators. -/
theorem scanOperators_leafChars {front : List Char} (h : ∀ c ∈ front, isLeafChar c = true) :
    scanOperators opened position (front ++ rest) =
      scanOperators opened (position + Text.byteLength front) rest := by
  induction front generalizing position with
  | nil => rfl
  | cons c front ih =>
    obtain ⟨hc, hfront⟩ := List.forall_mem_cons.1 h
    rw [List.cons_append, scanOperators_leafChar opened position _ hc, ih _ hfront, Nat.add_assoc]
    rfl

end Scanning

/-- The search for operators finds those of the lexemes, and the fault of the balance check. -/
theorem scanOperators_spell {pieces : List (Piece mode)} (h : Shared pieces) (opened : List Placed)
    (index position : Nat) :
    scanOperators (opened.map Placed.span) position (spell pieces) =
      operatorsOf opened (placeFrom index (lexemesAt position pieces)) := by
  induction pieces generalizing opened index position with
  | nil => cases opened <;> rfl
  | cons piece rest ih =>
    specialize ih h.tail
    have hflat := h.flat piece List.mem_cons_self
    -- all characters of a leaf are passed over, and it is no operator for the lexemes either
    have hleaf (kind : Lexeme.Kind) (operand : Expr) (hkind : piece.kind? = some kind)
        (hvalue : kind.value? = some operand) :
        scanOperators (opened.map Placed.span) position (spell (piece :: rest)) =
          operatorsOf opened (placeFrom index (lexemesAt position (piece :: rest))) := by
      have hisValue := Lexeme.Kind.isValue_of_value? hvalue
      show scanOperators _ position (piece.text ++ spell rest) = _
      rw [scanOperators_leafChars _ _ _ fun c ↦ piece.isLeafChar_of_mem_text hkind hisValue,
        ih opened (index + 1), lexemesAt_cons hkind, placeFrom, operatorsOf_value _ _ operand]
      exact hvalue
    cases piece with
    | space => exact ih opened index (position + 1)
    | symbol name allowed => exact hleaf _ _ rfl rfl
    | number literal => exact hleaf _ _ rfl rfl
    | mark written =>
      rw [lexemesAt_cons rfl, placeFrom]
      cases written with
      | negative => exact absurd rfl hflat.1
      | sine => exact absurd rfl hflat.2.1
      | cosine => exact absurd rfl hflat.2.2
      | openParen =>
        rw [operatorsOf_openParen _ _ rfl]
        exact (scanOperators_openParen _ position (spell rest)).trans
          (ih (⟨index, .openParen, position, .ofLength position 1, false⟩ :: opened) (index + 1)
            (position + 1))
      | closeParen =>
        cases opened with
        | nil => rfl
        | cons last outer =>
          rw [operatorsOf_closeParen _ _ rfl]
          exact (scanOperators_closeParen _ position (spell rest) _).trans
            (ih outer (index + 1) (position + 1))
      | operator op =>
        rw [operatorsOf_operator opened _ (show Placed.kind ⟨index, _⟩ = op.lexemeKind from rfl)]
        show scanOperators _ position (op.character :: spell rest) = _
        rw [scanOperators_operator, List.length_map, ih opened (index + 1)]
        cases op <;> rfl

/-! ### Leaves by characters -/

/-- A run goes on over leaf characters. -/
theorem leafRuns_leafChars {front : List Char} (h : ∀ c ∈ front, isLeafChar c = true)
    (text : List Char) (start position : Nat) (rest : List Char) :
    leafRuns (some ⟨text, start, position⟩) position (front ++ rest) =
      leafRuns (some ⟨text ++ front, start, position + Text.byteLength front⟩)
        (position + Text.byteLength front) rest := by
  induction front generalizing text position with
  | nil => rw [List.append_nil]; rfl
  | cons c front ih =>
    obtain ⟨hc, hfront⟩ := List.forall_mem_cons.1 h
    rw [List.cons_append, leafRuns]
    simp only [hc, if_true]
    show leafRuns (some ⟨text ++ [c], start, position + c.utf8Size⟩) (position + c.utf8Size) _ = _
    rw [ih hfront, List.append_assoc, List.singleton_append, Nat.add_assoc]
    rfl

/-- A run begins at a leaf. -/
theorem leafRuns_leaf {c : Char} {front : List Char} (h : ∀ d ∈ c :: front, isLeafChar d = true)
    (position : Nat) (rest : List Char) :
    leafRuns none position (c :: front ++ rest) =
      leafRuns (some ⟨c :: front, .ofChars position (c :: front)⟩)
        (position + Text.byteLength (c :: front)) rest := by
  obtain ⟨hc, hfront⟩ := List.forall_mem_cons.1 h
  rw [List.cons_append, leafRuns]
  simp only [hc, if_true]
  show leafRuns (some ⟨[c], position, position + c.utf8Size⟩) (position + c.utf8Size) _ = _
  rw [leafRuns_leafChars hfront, Nat.add_assoc]
  rfl

/-- A run ends where a piece is neither a space nor a leaf. -/
theorem leafRuns_mark {c : Char} (hleaf : isLeafChar c = false) (hspace : c ≠ ' ')
    (current : Option LeafRun) (position : Nat) (rest : List Char) :
    leafRuns current position (c :: rest) =
      current.toList ++ leafRuns none (position + c.utf8Size) rest := by
  rw [leafRuns]
  simp only [hleaf, if_neg hspace, Bool.false_eq_true, if_false]
  rfl

/-- The first lexeme of pieces is no value. -/
def EndsRun (pieces : List (Piece mode)) : Prop :=
  ∀ kind, (pieces.filterMap Piece.kind?).head? = some kind → kind.isValue = false

/-- A mark that both readers understand is one character, and none of a leaf. -/
theorem Shared.mark {written : Mark} {pieces : List (Piece mode)}
    (h : Shared (.mark written :: pieces)) :
    isLeafChar written.first = false ∧ written.first ≠ ' ' ∧ written.first.utf8Size = 1 ∧
      written.rest = [] := by
  obtain ⟨hnegative, hsine, hcosine⟩ := h.flat _ List.mem_cons_self
  cases written with
  | negative => exact absurd rfl hnegative
  | sine => exact absurd rfl hsine
  | cosine => exact absurd rfl hcosine
  | operator op => cases op <;> exact ⟨rfl, by decide, rfl, rfl⟩
  | _ => exact ⟨rfl, by decide, rfl, rfl⟩

/-- A run is complete where the next lexeme is no value. -/
theorem leafRuns_some {pieces : List (Piece mode)} (h : Shared pieces) (hends : EndsRun pieces)
    (run : LeafRun) (position : Nat) :
    leafRuns (some run) position (spell pieces) = run :: leafRuns none position (spell pieces) := by
  induction pieces generalizing position with
  | nil => rfl
  | cons piece rest ih =>
    cases piece with
    | space => exact ih h.tail hends (position + 1)
    | symbol name allowed => cases hends _ rfl
    | number literal => cases hends _ rfl
    | mark written =>
      obtain ⟨hleaf, hspace, -, hrest⟩ := h.mark
      show leafRuns _ _ (written.first :: _) = _ :: leafRuns _ _ (written.first :: _)
      rw [leafRuns_mark hleaf hspace, leafRuns_mark hleaf hspace]
      rfl

/-- A digit is the letter of no symbol. -/
theorem symbolOfText?_text (literal : Literal) : symbolOfText? literal.text = none := by
  unfold Literal.text
  cases literal.rest with
  | cons c rest => rfl
  | nil =>
    show Symbol.ofLetter? literal.first = none
    unfold Symbol.ofLetter?
    split <;> first | rfl | exact absurd ‹_› (Literal.first_ne (by decide))

/-- The text of a leaf is read as the lexeme is. -/
theorem Piece.leafOfText_text {piece : Piece mode} {kind : Lexeme.Kind} {operand : Expr}
    (hkind : piece.kind? = some kind) (hvalue : kind.value? = some operand) :
    leafOfText mode piece.text = .ok operand := by
  cases piece with
  | space => cases hkind
  | symbol name allowed =>
    cases hkind
    cases hvalue
    show leafOfText mode [name.letter] = _
    rw [leafOfText, symbolOfText?, Symbol.ofLetter?_letter]
    simp only [allowed, if_true]
  | number literal =>
    cases hkind
    cases hvalue
    have hall : literal.rest.all Decimal.isNumeralChar = true :=
      List.all_eq_true.2 literal.isNumeralChar_rest
    have hnumeral : isNumeralText literal.text = true := by
      rw [Literal.text, isNumeralText, literal.isDigit_first, hall]
      rfl
    show leafOfText mode literal.text = _
    rw [leafOfText, symbolOfText?_text literal]
    simp only [hnumeral, if_true, literal.ofChars?_text]
  | mark written =>
    cases hkind
    cases written with
    | operator op => cases op <;> cases hvalue
    | _ => cases hvalue

/-- What comes after a leaf ends its run. -/
theorem Shared.endsRun {piece : Piece mode} {pieces : List (Piece mode)}
    (h : Shared (piece :: pieces)) {kind : Lexeme.Kind} (hkind : piece.kind? = some kind)
    (hvalue : kind.isValue = true) :
    EndsRun pieces :=
  fun _ hnext ↦ h.not_isValue hkind hvalue hnext

/-- The leaves between the operators are those of the lexemes. -/
theorem leavesOfRuns_spell {pieces : List (Piece mode)} (h : Shared pieces) (depth position : Nat) :
    leavesOfRuns mode (leafRuns none position (spell pieces)) =
      .ok (leaves (flatElements depth (spots (lexemesAt position pieces)))) := by
  induction pieces generalizing depth position with
  | nil => rfl
  | cons piece rest ih =>
    specialize ih h.tail
    -- a leaf is a run of its own, since spaces and then a mark come after it
    have hleaf (kind : Lexeme.Kind) (operand : Expr) (hkind : piece.kind? = some kind)
        (hvalue : kind.value? = some operand) :
        leavesOfRuns mode (leafRuns none position (spell (piece :: rest))) =
          .ok (leaves (flatElements depth (spots (lexemesAt position (piece :: rest))))) := by
      have hisValue := Lexeme.Kind.isValue_of_value? hvalue
      have hchars : ∀ c ∈ piece.first :: piece.rest, isLeafChar c = true :=
        fun c ↦ piece.isLeafChar_of_mem_text hkind hisValue
      have hrun : LeafRun.leaf mode
          ⟨piece.first :: piece.rest, .ofChars position (piece.first :: piece.rest)⟩ =
            .ok (position, operand) := by
        have htext : leafOfText mode (piece.first :: piece.rest) = .ok operand :=
          piece.leafOfText_text hkind hvalue
        rw [LeafRun.leaf, htext]
        rfl
      show leavesOfRuns mode (leafRuns none position (piece.first :: piece.rest ++ spell rest)) = _
      rw [leafRuns_leaf hchars, leafRuns_some h.tail (h.endsRun hkind hisValue), leavesOfRuns, hrun]
      simp only
      rw [ih depth, lexemesAt_cons hkind, spots_cons, flatElements_value _ _ _ hvalue]
      rfl
    cases piece with
    | space => exact ih depth (position + 1)
    | symbol name allowed => exact hleaf _ _ rfl rfl
    | number literal => exact hleaf _ _ rfl rfl
    | mark written =>
      obtain ⟨hnoLeaf, hspace, hsize, hrest⟩ := h.mark
      have hspell : spell (.mark written :: rest) = written.first :: spell rest := by
        show written.first :: (written.rest ++ spell rest) = _
        rw [hrest, List.nil_append]
      rw [hspell, leafRuns_mark hnoLeaf hspace, hsize, lexemesAt_cons rfl]
      have hlength : Text.byteLength (Piece.mark written : Piece mode).text = 1 := by
        show Text.byteLength (written.first :: written.rest) = 1
        rw [hrest, ← hsize]
        rfl
      rw [hlength, spots_cons]
      obtain ⟨hnegative, hsine, hcosine⟩ := h.flat _ List.mem_cons_self
      cases written with
      | negative => exact absurd rfl hnegative
      | sine => exact absurd rfl hsine
      | cosine => exact absurd rfl hcosine
      | openParen => exact ih (depth + 1) (position + 1)
      | closeParen => exact ih (depth - 1) (position + 1)
      | operator op =>
        show _ = Except.ok (leaves (flatElements depth ((_, op.lexemeKind) :: _)))
        rw [flatElements_operator]
        exact ih depth (position + 1)

/-! ### Regions by characters -/

/-- Between a leaf and the next mark there are only spaces. -/
theorem takeWhile_spell {pieces : List (Piece mode)} (h : Shared pieces) (hends : EndsRun pieces) :
    ∃ count, (spell pieces).takeWhile (fun c ↦ isLeafChar c || c == ' ') =
      List.replicate count ' ' := by
  induction pieces with
  | nil => exact ⟨0, rfl⟩
  | cons piece rest ih =>
    cases piece with
    | space =>
      obtain ⟨count, hcount⟩ := ih h.tail hends
      exact ⟨count + 1, congrArg (' ' :: ·) hcount⟩
    | symbol name allowed => cases hends _ rfl
    | number literal => cases hends _ rfl
    | mark written =>
      obtain ⟨hleaf, hspace, -, -⟩ := h.mark
      refine ⟨0, ?_⟩
      show (written.first :: _).takeWhile _ = []
      rw [List.takeWhile_cons_of_neg]
      rw [hleaf, beq_eq_false_iff_ne.2 hspace]
      exact Bool.false_ne_true

/-- The length of a run that ends with a leaf character, where only spaces stand between it and what
ends runs. -/
theorem leafRunLength_append {text rest : List Char}
    (htext : ∀ c ∈ text, (isLeafChar c || c == ' ') = true)
    (hlast : ∀ c ∈ text.getLast?, isLeafChar c = true)
    (hrest : ∃ count, rest.takeWhile (fun c ↦ isLeafChar c || c == ' ') =
      List.replicate count ' ') : leafRunLength (text ++ rest) = Text.byteLength text := by
  obtain ⟨count, hrest⟩ := hrest
  have htake : (text ++ rest).takeWhile (fun c ↦ isLeafChar c || c == ' ') =
      text ++ List.replicate count ' ' := by
    rw [List.takeWhile_append_of_pos htext, hrest]
  have hreverse : (text ++ List.replicate count ' ').reverse.dropWhile (· == ' ') =
      text.reverse := by
    rw [List.reverse_append, List.reverse_replicate, List.dropWhile_append_of_pos]
    · rw [← List.head?_reverse] at hlast
      cases hcons : text.reverse with
      | nil => rfl
      | cons c others =>
        rw [List.dropWhile_cons_of_neg]
        intro hspace
        have hleaf := hlast c (by rw [hcons]; rfl)
        rw [eq_of_beq hspace] at hleaf
        cases hleaf
    · intro c hc
      rw [List.eq_of_mem_replicate hc]
      rfl
  unfold leafRunLength
  simp only [htake, hreverse, List.reverse_reverse]

/-- The region at the start of a lexeme is the region of the lexeme. -/
theorem spanAtPosition_spell {pieces : List (Piece mode)} (h : Shared pieces) (before : List Char)
    {lexeme : Lexeme} (hlexeme : lexeme ∈ lexemesAt (Text.byteLength before) pieces) :
    spanAtPosition (before ++ spell pieces) lexeme.span.start = lexeme.span := by
  induction pieces generalizing before with
  | nil => cases hlexeme
  | cons piece rest ih =>
    -- a later lexeme is found with the text of this piece among the text before it
    have hnext (hmem : lexeme ∈ lexemesAt (Text.byteLength (before ++ piece.text)) rest) :
        spanAtPosition (before ++ spell (piece :: rest)) lexeme.span.start = lexeme.span := by
      have hspan := ih h.tail (before ++ piece.text) hmem
      rw [List.append_assoc] at hspan
      exact hspan
    have hlength : Text.byteLength (before ++ piece.text) =
        Text.byteLength before + Text.byteLength piece.text :=
      Text.byteLength_append before piece.text
    cases hkind : piece.kind? with
    | none =>
      obtain rfl := Piece.eq_space_of_kind?_eq_none hkind
      refine hnext ?_
      rw [hlength]
      exact hlexeme
    | some kind =>
      rw [lexemesAt_cons hkind] at hlexeme
      rcases List.mem_cons.1 hlexeme with rfl | hlexeme
      · show spanAtPosition _ (Text.byteLength before) = _
        rw [spanAtPosition, Text.dropBytes_append, spell_cons]
        show (if isLeafChar piece.first = true then
          Text.Span.ofLength _ (leafRunLength (piece.text ++ spell rest)) else _) = _
        by_cases hvalue : kind.isValue = true
        · have hchars (c : Char) (hc : c ∈ piece.text) : isLeafChar c = true :=
            piece.isLeafChar_of_mem_text hkind hvalue hc
          rw [if_pos (hchars piece.first List.mem_cons_self),
            leafRunLength_append (fun c hc ↦ by rw [hchars c hc]; rfl)
              (fun c hc ↦ hchars c (List.mem_of_getLast? hc))
              (takeWhile_spell h.tail (h.endsRun hkind hvalue))]
          rfl
        · cases piece with
          | space => cases hkind
          | symbol name allowed =>
            cases hkind
            exact absurd rfl hvalue
          | number literal =>
            cases hkind
            exact absurd rfl hvalue
          | mark written =>
            obtain ⟨hleaf, -, -, hrest⟩ := h.mark
            show (if isLeafChar written.first = true then _ else _) =
              Text.Span.ofChars _ (written.first :: written.rest)
            rw [hleaf, hrest]
            rfl
      · exact hnext (by rwa [hlength])

/-! ### Agreement -/

/-- Lexemes stand one after the other, inside their text. -/
theorem lexemesAt_bounds {pieces : List (Piece mode)} {position : Nat} {lexeme : Lexeme}
    (h : lexeme ∈ lexemesAt position pieces) :
    position ≤ lexeme.span.start ∧ lexeme.span.start < lexeme.span.stop ∧
      lexeme.span.stop ≤ position + Text.byteLength (spell pieces) := by
  induction pieces generalizing position with
  | nil => cases h
  | cons piece rest ih =>
    have hsize := Char.utf8Size_pos piece.first
    have hlength : Text.byteLength (spell (piece :: rest)) =
        Text.byteLength piece.text + Text.byteLength (spell rest) :=
      Text.byteLength_append piece.text (spell rest)
    have htext : Text.byteLength piece.text =
      piece.first.utf8Size + Text.byteLength piece.rest := rfl
    have hrest (hmem : lexeme ∈ lexemesAt (position + Text.byteLength piece.text) rest) :
        position ≤ lexeme.span.start ∧ lexeme.span.start < lexeme.span.stop ∧
          lexeme.span.stop ≤ position + Text.byteLength (spell (piece :: rest)) := by
      have := ih hmem
      omega
    unfold lexemesAt at h
    split at h
    · exact hrest h
    · rcases List.mem_cons.1 h with rfl | h
      · show position ≤ position ∧ position < position + Text.byteLength piece.text ∧
          position + Text.byteLength piece.text ≤ _
        omega
      · exact hrest h

/-- No two lexemes overlap. -/
theorem separated_lexemesAt (position : Nat) (pieces : List (Piece mode)) :
    (lexemesAt position pieces).Pairwise fun first second ↦
      first.span.stop ≤ second.span.start := by
  induction pieces generalizing position with
  | nil => exact .nil
  | cons piece rest ih =>
    unfold lexemesAt
    split
    · exact ih _
    · exact List.pairwise_cons.2 ⟨fun lexeme hlexeme ↦ (lexemesAt_bounds hlexeme).1, ih _⟩

/-- The lexemes of pieces begin one behind the other. -/
theorem pairwise_lexemesAt (position : Nat) (pieces : List (Piece mode)) :
    (lexemesAt position pieces).Pairwise fun first second ↦
      first.span.start < second.span.start :=
  (separated_lexemesAt position pieces).imp_of_mem fun hfirst _ hseparated ↦
    Nat.lt_of_lt_of_le (lexemesAt_bounds hfirst).2.1 hseparated

/-- On a text of their shared language the two readers agree. -/
theorem agree_parse_token_direct {pieces : List (Piece mode)} (h : Shared pieces) :
    Agree (Reader.token.parse mode (spell pieces)) (Reader.direct.parse mode (spell pieces)) := by
  let length := Text.byteLength (spell pieces)
  have htoken : Reader.token.parse mode (spell pieces) =
      (Source.read ⟨lexemesAt 0 pieces, length⟩).outcome := by
    show (readLexemes mode (spell pieces)).outcome = _
    rw [readLexemes, Recorded.outcome_andThen, outcome_lexRecorded_spell h.legible h.joins]
    rfl
  have hdirect : Reader.direct.parse mode (spell pieces) =
      (operatorsOf [] (placeFrom 0 (lexemesAt 0 pieces))).bind fun operators ↦
        (assemble ⟨spanAtPosition (spell pieces), ⟨0, length⟩⟩
          (.ofList (leaves (flatElements 0 (spots (lexemesAt 0 pieces)))))
          (constructionOrder operators)).outcome := by
    have hscan : scanOperators [] 0 (spell pieces) = _ := scanOperators_spell h [] 0 0
    have hleaves := leavesOfRuns_spell h 0 0
    show (readCharacters mode (spell pieces)).outcome = _
    rw [readCharacters, Recorded.outcome_andThen, Recorded.outcome_ofExcept, gatherCharacters,
      hscan, hleaves]
    simp only [Gathered.outcome_build]
    cases operatorsOf [] (placeFrom 0 (lexemesAt 0 pieces)) <;> rfl
  -- both are now assemblies of the same lexemes, and only the regions differ
  rw [htoken, hdirect]
  refine agree_read_flat ?_ (pairwise_lexemesAt 0 pieces) ?_ ?_
  · intro lexeme hlexeme
    refine h.isFlat_kind lexeme.kind ?_
    rw [← map_kind_lexemesAt 0]
    exact List.mem_map_of_mem hlexeme
  · intro lexeme hlexeme
    have := (lexemesAt_bounds hlexeme).2
    omega
  · intro lexeme hlexeme
    exact spanAtPosition_spell h [] hlexeme

/-- The two readers agree on `x - (1.5) *`, where both miss an operand. -/
theorem agree_parse_missing_operand :
    Agree (Reader.token.parse .multiVariable "x - (1.5) *".toList)
      (Reader.direct.parse .multiVariable "x - (1.5) *".toList) := by
  let literal : Literal := ⟨'1', ['.', '5'], rfl, List.all_eq_true.1 rfl, by decide⟩
  let pieces : List (Piece .multiVariable) :=
    [.symbol .x rfl, .space, .mark (.operator .sub), .space, .mark .openParen, .number literal,
      .mark .closeParen, .space, .mark (.operator .mul)]
  have hshared : Shared pieces := by
    refine ⟨?_, ?_, ?_⟩
    · simp [pieces]
    · simp [pieces, List.cons_eq_append_iff]
    · have hkinds : pieces.filterMap Piece.kind? =
        [.symbol .x, .minus, .openParen, .number literal.numeral, .closeParen, .times] := rfl
      rw [hkinds]
      simp [Lexeme.Kind.isValue]
  have hspell : spell pieces = "x - (1.5) *".toList := rfl
  rw [← hspell]
  exact agree_parse_token_direct hshared

end Nabla.Formula
