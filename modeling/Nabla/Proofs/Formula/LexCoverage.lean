import Nabla.Proofs.Formula.ReaderAgreement
import Nabla.Proofs.Formula.Spacing

/-!
# Lexing loses nothing

The lexemes of a text cover it up to the first fault: the written ones stand one after the other,
and every byte between them is a space. The text up to the fault has the same lexemes and no fault
(`lex_loses_nothing`).

The text up to the fault is cut off first (`exists_beforeFault`). It is without a fault, so it is
the text of pieces, and all else is said about the lexemes of pieces.
-/

namespace Nabla

namespace Text

/-- The bytes of a text in UTF-8. -/
def bytes (text : List Char) : List UInt8 := text.flatMap String.utf8EncodeChar

/-- The bytes of two texts, one behind the other. -/
theorem bytes_append (front back : List Char) : bytes (front ++ back) = bytes front ++ bytes back :=
  List.flatMap_append

/-- A text has as many bytes as it is long. -/
theorem length_bytes (text : List Char) : (bytes text).length = byteLength text := by
  induction text with
  | nil => rfl
  | cons c rest ih =>
    show (String.utf8EncodeChar c ++ bytes rest).length = _
    rw [List.length_append, String.length_utf8EncodeChar, ih]
    rfl

end Text

namespace Formula

variable {mode : Mode}

/-! ### The text up to the first fault -/

/-- The position of a fault, or the given one if there is none. -/
def faultPosition (stop : Nat) (fault? : Option Fault) : Nat :=
  fault?.elim stop fun fault ↦ fault.span.start

/-- The front of a text that begins at a byte position, up to its first fault. -/
structure BeforeFault (mode : Mode) (position : Nat) (text front : List Char) : Prop where
  isPrefix : ∃ back, front ++ back = text
  stop : faultPosition (position + Text.byteLength text) (lexFrom mode position text).2 =
    position + Text.byteLength front
  lexemes : lexFrom mode position front = ((lexFrom mode position text).1, none)
  /-- A space in front of the text is no fault. -/
  space : text.head? = some ' ' → front.head? = some ' '

/-- There is nothing to read at the end of a text. -/
theorem lexFrom_nil (mode : Mode) (position : Nat) : lexFrom mode position [] = ([], none) := by
  rw [lexFrom, Token.scanFrom]
  rfl

namespace BeforeFault

variable {position number : Nat} {c : Char} {text front rest : List Char}
  {tokenKind : Token.Kind}

/-- There is no fault in an empty text. -/
theorem nil (mode : Mode) (position : Nat) : BeforeFault mode position [] [] := by
  refine ⟨⟨[], rfl⟩, ?_, ?_, id⟩ <;> rw [lexFrom_nil]
  rfl

/-- There is nothing in front of a token that is a fault. -/
theorem of_error (hspace : c ≠ ' ') (hfirst : Token.first c rest = (tokenKind, number))
    {cause : Cause} (hclassify : classify mode
      ⟨tokenKind, c :: rest.take number, .ofChars position (c :: rest.take number)⟩
      ((rest.drop number).head? == some ' ') = .error cause) :
    BeforeFault mode position (c :: rest) [] := by
  have hlexed : lexFrom mode position (c :: rest) =
      ([], some ⟨cause, [.ofChars position (c :: rest.take number)]⟩) := by
    rw [lexFrom, Token.scanFrom_cons hfirst, classifyAll, startsWithSpaces_scanFrom, hclassify]
  refine ⟨⟨c :: rest, rfl⟩, ?_, ?_, fun hhead ↦ absurd (Option.some.inj hhead) hspace⟩
  · rw [hlexed]
    rfl
  · rw [hlexed, lexFrom_nil]

/-- A space in front is no fault. -/
theorem cons_space (h : BeforeFault mode (position + 1) text front) :
    BeforeFault mode position (' ' :: text) (' ' :: front) := by
  have hlength (other : List Char) :
      position + Text.byteLength (' ' :: other) = position + 1 + Text.byteLength other :=
    (Nat.add_assoc position 1 _).symm
  obtain ⟨back, hback⟩ := h.isPrefix
  refine ⟨⟨back, congrArg (' ' :: ·) hback⟩, ?_, ?_, id⟩
  · rw [lexFrom_space, hlength, hlength]
    exact h.stop
  · rw [lexFrom_space, lexFrom_space, h.lexemes]

/-- The front of the text after a token begins like that text, or there is none. -/
theorem head?_eq (h : BeforeFault mode position text front) {next : Char}
    (hnext : front.head? = some next) : text.head? = some next := by
  obtain ⟨back, rfl⟩ := h.isPrefix
  rw [List.head?_append, hnext, Option.some_or]

/-- A `-` in front of the cut is told apart as before. -/
theorem head?_beq_space (h : BeforeFault mode position text front) :
    (front.head? == some ' ') = (text.head? == some ' ') := by
  rw [Bool.eq_iff_iff, beq_iff_eq, beq_iff_eq]
  exact ⟨h.head?_eq, h.space⟩

/-- The first token is the same in front of the cut. -/
theorem cons_token (hspace : c ≠ ' ') (hfirst : Token.first c rest = (tokenKind, number))
    {kind? : Option Lexeme.Kind} (hclassify : classify mode
      ⟨tokenKind, c :: rest.take number, .ofChars position (c :: rest.take number)⟩
      ((rest.drop number).head? == some ' ') = .ok kind?)
    (h : BeforeFault mode (position + Text.byteLength (c :: rest.take number))
      (rest.drop number) front) :
    BeforeFault mode position (c :: rest) (c :: (rest.take number ++ front)) := by
  have hkind : tokenKind ≠ .other := by
    rintro rfl
    cases hclassify
  have hsame : Token.first c (rest.take number ++ front) = (tokenKind, (rest.take number).length) :=
    Token.first_append hfirst hspace hkind fun next hnext ↦ .inl (h.head?_eq hnext)
  have hlexed := @lexFrom_eq_of_first mode c _ tokenKind _ position kind? hsame
  rw [List.take_left, List.drop_left, h.head?_beq_space] at hlexed
  have htext := lexFrom_eq_of_first hfirst hclassify
  have hlength (back : List Char) : position + Text.byteLength (c :: (rest.take number ++ back)) =
      position + Text.byteLength (c :: rest.take number) + Text.byteLength back := by
    rw [← List.cons_append, Text.byteLength_append, Nat.add_assoc]
  obtain ⟨back, hback⟩ := h.isPrefix
  refine ⟨⟨back, ?_⟩, ?_, ?_, fun hhead ↦ absurd (Option.some.inj hhead) hspace⟩
  · rw [List.cons_append, List.append_assoc, hback, List.take_append_drop]
  · have hall := hlength (rest.drop number)
    rw [List.take_append_drop] at hall
    rw [hlength, hall, htext]
    exact h.stop
  · rw [hlexed hclassify, htext]
    exact congrArg (Prod.map _ id) h.lexemes

end BeforeFault

/-- Every text has a front up to its first fault. -/
theorem exists_beforeFault (mode : Mode) (position : Nat) (text : List Char) :
    ∃ front, BeforeFault mode position text front := by
  match text with
  | [] => exact ⟨[], .nil mode position⟩
  | c :: rest =>
    by_cases hspace : c = ' '
    · subst hspace
      obtain ⟨front, hfront⟩ := exists_beforeFault mode (position + 1) rest
      exact ⟨_, hfront.cons_space⟩
    · rcases hfirst : Token.first c rest with ⟨tokenKind, number⟩
      cases hclassify : classify mode
        ⟨tokenKind, c :: rest.take number, .ofChars position (c :: rest.take number)⟩
        ((rest.drop number).head? == some ' ') with
      | error cause => exact ⟨[], .of_error hspace hfirst hclassify⟩
      | ok kind? =>
        have hdrop : (rest.drop number).length < (c :: rest).length := by
          rw [List.length_drop, List.length_cons]
          omega
        obtain ⟨front, hfront⟩ := exists_beforeFault mode
          (position + Text.byteLength (c :: rest.take number)) (rest.drop number)
        exact ⟨_, hfront.cons_token hspace hfirst hclassify⟩
termination_by text.length
decreasing_by
  · exact Nat.lt_succ_self _
  · exact hdrop

/-! ### Lexemes of pieces -/

/-- A byte of pieces is in the region of a lexeme, or it is a space. -/
theorem mem_lexemesAt_or_space {pieces : List (Piece mode)} {position place : Nat}
    (h : place < Text.byteLength (spell pieces)) :
    (∃ lexeme ∈ lexemesAt position pieces,
        lexeme.span.start ≤ position + place ∧ position + place < lexeme.span.stop) ∨
      (Text.bytes (spell pieces))[place]? = some 32 := by
  induction pieces generalizing position place with
  | nil => cases h
  | cons piece rest ih =>
    have hspell : spell (piece :: rest) = piece.text ++ spell rest := rfl
    rw [hspell, Text.byteLength_append] at h
    rw [hspell, Text.bytes_append]
    by_cases hplace : place < Text.byteLength piece.text
    · cases hkind : piece.kind? with
      | none =>
        -- the piece is a space, and this is its only byte
        obtain rfl := Piece.eq_space_of_kind?_eq_none hkind
        obtain rfl : place = 0 := Nat.lt_one_iff.1 hplace
        exact .inr rfl
      | some kind =>
        rw [lexemesAt_cons hkind]
        exact .inl ⟨_, List.mem_cons_self, Nat.le_add_right _ _,
          Nat.add_lt_add_left hplace position⟩
    · obtain ⟨later, rfl⟩ := Nat.exists_eq_add_of_le (Nat.not_lt.1 hplace)
      rcases @ih (position + Text.byteLength piece.text) later (by omega) with
        ⟨lexeme, hmem, hcovers⟩ | hspace
      · refine .inl ⟨lexeme, ?_, by omega, by omega⟩
        rw [lexemesAt]
        split
        · exact hmem
        · exact List.mem_cons_of_mem _ hmem
      · right
        rw [List.getElem?_append_right (by rw [Text.length_bytes]; omega), Text.length_bytes,
          Nat.add_sub_cancel_left]
        exact hspace

/-- A byte of pieces outside the regions of their lexemes is a space. -/
theorem space_of_outside {pieces : List (Piece mode)} {position : Nat}
    (h : position < Text.byteLength (spell pieces))
    (houtside : ∀ span ∈ (lexemesAt 0 pieces).map Lexeme.span,
      position < span.start ∨ span.stop ≤ position) :
    (Text.bytes (spell pieces))[position]? = some 32 := by
  rw [List.forall_mem_map] at houtside
  rcases @mem_lexemesAt_or_space mode pieces 0 position h with ⟨lexeme, hmem, hcovers⟩ | hspace
  · have := houtside lexeme hmem
    omega
  · exact hspace

/-- The region of a lexeme of pieces is not empty and ends within them. -/
theorem bounds_of_mem_lexemesAt {pieces : List (Piece mode)} {lexeme : Lexeme}
    (h : lexeme ∈ lexemesAt 0 pieces) :
    lexeme.span.start < lexeme.span.stop ∧ lexeme.span.stop ≤ Text.byteLength (spell pieces) := by
  have hbounds := lexemesAt_bounds h
  rw [Nat.zero_add] at hbounds
  exact hbounds.2

/-- The written lexemes are those that multiplications were inserted into. -/
theorem filter_insertTimesAfter {lexemes : List Lexeme}
    (h : ∀ lexeme ∈ lexemes, lexeme.implicit = false) (last : Option Lexeme.Kind) (distance : Nat) :
    ((insertTimesAfter last distance lexemes).filter (!·.implicit)).map Lexeme.span =
      lexemes.map Lexeme.span := by
  induction lexemes generalizing last distance with
  | nil => rfl
  | cons lexeme rest ih =>
    obtain ⟨hlexeme, hrest⟩ := List.forall_mem_cons.1 h
    have hshift (distance : Nat) (others : List Lexeme) :
        ((lexeme.shift distance :: others).filter (!·.implicit)).map Lexeme.span =
          lexeme.span :: (others.filter (!·.implicit)).map Lexeme.span := by
      rw [List.filter_cons_of_pos]
      · rfl
      · show (!lexeme.implicit) = true
        rw [hlexeme]
        rfl
    rw [insertTimesAfter]
    split
    · rw [List.filter_cons_of_neg Bool.false_ne_true, hshift, ih hrest]
      rfl
    · rw [hshift, ih hrest]
      rfl

/-- The regions of the written lexemes of pieces are those in front of the insertion. -/
theorem written_insertTimes (pieces : List (Piece mode)) :
    ((insertTimes 0 (lexemesAt 0 pieces)).filter (!·.implicit)).map Lexeme.span =
      (lexemesAt 0 pieces).map Lexeme.span := by
  rw [insertTimes_eq_insertTimesAfter]
  exact filter_insertTimesAfter (implicit_lexemesAt 0 pieces) none 0

/-- The offsets count the positions in the text with written multiplications, so they increase. -/
theorem pairwise_offset_insertTimes (pieces : List (Piece mode)) :
    (insertTimes 0 (lexemesAt 0 pieces)).Pairwise fun first second ↦
      first.offset < second.offset := by
  have hoffsets := congrArg (List.map Prod.snd) (map_insertTimesAfter none 0 0 pieces)
  rw [List.map_map, List.map_map] at hoffsets
  have hstarts := List.pairwise_map.2 (pairwise_lexemesAt 0 (withTimes none pieces))
  rw [insertTimes_eq_insertTimesAfter, ← List.pairwise_map (f := Lexeme.offset)]
  exact hoffsets ▸ hstarts

/-! ### Lexemes of a text -/

/-- The text up to its first fault, or else its end, is the text of pieces, and their lexemes are
those of the text. -/
theorem exists_pieces_beforeFault (mode : Mode) (text : List Char) :
    ∃ (pieces : List (Piece mode)) (back : List Char), spell pieces ++ back = text ∧
      Legible pieces ∧
      faultPosition (Text.byteLength text) (lex mode text).fault =
        Text.byteLength (spell pieces) ∧
      (lex mode text).lexemes = insertTimes 0 (lexemesAt 0 pieces) := by
  obtain ⟨front, hfront⟩ := exists_beforeFault mode 0 text
  obtain ⟨back, hback⟩ := hfront.isPrefix
  have hlexemes := hfront.lexemes
  have hstop := hfront.stop
  obtain ⟨pieces, rfl, hlegible⟩ := exists_pieces hlexemes
  rw [Nat.zero_add, Nat.zero_add] at hstop
  rw [lexFrom_spell hlegible] at hlexemes
  exact ⟨pieces, back, hback, hlegible, hstop,
    congrArg (insertTimes 0) (congrArg Prod.fst hlexemes).symm⟩

/-- Nothing is lost where a text is cut into lexemes. Up to the first fault, or else the end, the
regions of the written lexemes are not empty, stand one after the other and leave only spaces
out. The text up to there has the same lexemes without a fault, and their offsets increase. -/
theorem lex_loses_nothing (mode : Mode) (text : List Char) :
    let lexed := lex mode text
    let stop := faultPosition (Text.byteLength text) lexed.fault
    let written := (lexed.lexemes.filter (!·.implicit)).map Lexeme.span
    Text.IsBoundary text stop ∧
      (∀ span ∈ written, span.start < span.stop ∧ span.stop ≤ stop) ∧
      (written.Pairwise fun first second ↦ first.stop ≤ second.start) ∧
      (∀ position < stop,
        (∀ span ∈ written, position < span.start ∨ span.stop ≤ position) →
          (Text.bytes text)[position]? = some 32) ∧
      lex mode (Text.takeBytes stop text) = ⟨lexed.lexemes, none⟩ ∧
      lexed.lexemes.Pairwise fun first second ↦ first.offset < second.offset := by
  intro lexed stop written
  obtain ⟨pieces, back, rfl, hlegible, hstop, hlexemes⟩ := exists_pieces_beforeFault mode text
  have hwritten : written = (lexemesAt 0 pieces).map Lexeme.span := by
    rw [← written_insertTimes, ← hlexemes]
  rw [hwritten, show lexed.lexemes = _ from hlexemes, show stop = _ from hstop]
  refine ⟨.append _ back, ?_, List.pairwise_map.2 (separated_lexemesAt 0 pieces), ?_, ?_,
    pairwise_offset_insertTimes pieces⟩
  · rw [List.forall_mem_map]
    exact fun lexeme hmem ↦ bounds_of_mem_lexemesAt hmem
  · intro position hposition houtside
    rw [Text.bytes_append, List.getElem?_append_left (by rwa [Text.length_bytes])]
    exact space_of_outside hposition houtside
  · rw [Text.takeBytes_append]
    exact lex_spell hlegible

end Formula

end Nabla
