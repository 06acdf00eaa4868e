import Nabla.Formula.Reader
import Nabla.Proofs.Formula.Respelling
import Nabla.Proofs.Formula.Verdict

/-!
# Implicit multiplications written out

`writeTimes` puts a `*` into a text wherever a multiplication is inserted between its lexemes. The
text with the stars has the same lexemes as the text without, none of them implicit, and the offsets
that the insertion counts are the positions in the text with the stars (`lex_writeTimes`).

The proof compares the two insertions on pieces: `insertTimes` on their lexemes, and `withTimes` on
the pieces themselves.
-/

namespace Nabla.Formula

/-! ### Stars in a text -/

/-- The places in front of which a multiplication was inserted: the first byte of each lexeme that
directly follows an implicit one. -/
def joints : List Lexeme → List Nat
  | lexeme :: next :: rest =>
      if lexeme.implicit then next.span.start :: joints (next :: rest) else joints (next :: rest)
  | _ => []

/-- A text that begins at a byte position, with a `*` in front of the characters at the places. -/
def insertStars (places : List Nat) (position : Nat) : List Char → List Char
  | [] => []
  | c :: rest =>
      if position ∈ places then '*' :: c :: insertStars places (position + c.utf8Size) rest
      else c :: insertStars places (position + c.utf8Size) rest

/-- A text with its implicit multiplications written out. -/
def writeTimes (mode : Mode) (text : List Char) : List Char :=
  insertStars (joints (lex mode text).lexemes) 0 text

/-- Characters at none of the places stay as they are. -/
theorem insertStars_append {places : List Nat} {position : Nat} {front : List Char}
    (h : ∀ place ∈ places, place < position ∨ position + Text.byteLength front ≤ place)
    (back : List Char) :
    insertStars places position (front ++ back) =
      front ++ insertStars places (position + Text.byteLength front) back := by
  induction front generalizing position with
  | nil => rfl
  | cons c rest ih =>
    have hsize : 0 < c.utf8Size := c.utf8Size_pos
    rw [Text.byteLength] at h
    have hnotMem : position ∉ places := fun hmem ↦ by
      have := h position hmem
      omega
    rw [List.cons_append, insertStars, if_neg hnotMem, ih, List.cons_append, Text.byteLength,
      Nat.add_assoc]
    intro place hplace
    have := h place hplace
    omega

/-- A piece with no place inside gets a `*` in front if its first character is at a place. -/
theorem insertStars_piece {mode : Mode} {places : List Nat} {position : Nat} {piece : Piece mode}
    (h : ∀ place ∈ places, place ≤ position ∨ position + Text.byteLength piece.text ≤ place)
    (back : List Char) :
    insertStars places position (piece.text ++ back) =
      (if position ∈ places then ['*'] else []) ++
        (piece.text ++ insertStars places (position + Text.byteLength piece.text) back) := by
  have hsize : 0 < piece.first.utf8Size := piece.first.utf8Size_pos
  have hinside : insertStars places (position + piece.first.utf8Size) (piece.rest ++ back) =
      piece.rest ++ insertStars places (position + Text.byteLength piece.text) back := by
    rw [Piece.text, Text.byteLength] at h ⊢
    rw [insertStars_append, Nat.add_assoc]
    intro place hplace
    have := h place hplace
    omega
  show insertStars places position (piece.first :: (piece.rest ++ back)) = _
  rw [insertStars, hinside]
  split <;> rfl

/-! ### Multiplications behind a lexeme -/

/-- Whether a lexeme is multiplied with the one before it, if there is one. -/
def joinsAfter (last : Option Lexeme.Kind) (kind : Lexeme.Kind) : Bool :=
  last.any fun left ↦ joins left kind

/-- Insert the implicit multiplications into lexemes after a given one. -/
def insertTimesAfter (last : Option Lexeme.Kind) (distance : Nat) : List Lexeme → List Lexeme
  | [] => []
  | lexeme :: rest =>
      if joinsAfter last lexeme.kind then
        (lexeme.shift distance).implicitTimes :: lexeme.shift (distance + 1) ::
          insertTimesAfter (some lexeme.kind) (distance + 1) rest
      else lexeme.shift distance :: insertTimesAfter (some lexeme.kind) distance rest

/-- Behind the first lexeme the insertions depend on its kind. -/
theorem insertTimes_cons (distance : Nat) (lexeme : Lexeme) (rest : List Lexeme) :
    insertTimes distance (lexeme :: rest) =
      lexeme.shift distance :: insertTimesAfter (some lexeme.kind) distance rest := by
  induction rest generalizing distance lexeme with
  | nil => rfl
  | cons next others ih =>
    rw [insertTimes, insertTimesAfter, joinsAfter, Option.any_some]
    split
    · rw [ih]
    · rw [ih]

/-- Nothing is inserted in front of the first lexeme. -/
theorem insertTimes_eq_insertTimesAfter (distance : Nat) (lexemes : List Lexeme) :
    insertTimes distance lexemes = insertTimesAfter none distance lexemes := by
  cases lexemes with
  | nil => rfl
  | cons lexeme rest => exact insertTimes_cons distance lexeme rest

/-- A lexeme that is not implicit has no place in front of the next one. -/
theorem joints_cons {lexeme : Lexeme} (h : lexeme.implicit = false) (rest : List Lexeme) :
    joints (lexeme :: rest) = joints rest := by
  cases rest with
  | nil => rfl
  | cons next others => rw [joints, h, if_neg Bool.false_ne_true]

/-! ### Multiplications between pieces -/

variable {mode : Mode}

/-- The piece of a written multiplication. -/
def Piece.times : Piece mode := .mark (.operator .mul)

/-- Pieces after a lexeme, with their implicit multiplications written out. -/
def withTimes (last : Option Lexeme.Kind) : List (Piece mode) → List (Piece mode)
  | [] => []
  | piece :: rest =>
      match piece.kind? with
      | none => piece :: withTimes last rest
      | some kind =>
          if joinsAfter last kind then .times :: piece :: withTimes (some kind) rest
          else piece :: withTimes (some kind) rest

/-- The piece in front of a written multiplication is a value or a space, so it is left as it is. -/
theorem Piece.FitsBefore.withTimes {piece : Piece mode} {rest : List (Piece mode)}
    (h : piece.FitsBefore rest.head?) (last : Option Lexeme.Kind) :
    piece.FitsBefore (withTimes last rest).head? := by
  cases rest with
  | nil => exact h
  | cons next others =>
    rw [Formula.withTimes]
    split
    · exact h
    · rename_i kind hkind
      split
      · cases piece with
        | mark written =>
          cases written with
          | operator op =>
            cases op with
            | sub =>
              -- a subtraction has a space after it, and no place for a multiplication
              cases Option.some.inj h
              cases hkind
            | _ => trivial
          | negative => exact fun (heq : some Piece.times = some Piece.space) ↦ by cases heq
          | _ => trivial
        | number literal =>
          exact fun other (heq : some Piece.times = some (Piece.number other)) ↦ by cases heq
        | _ => trivial
      · exact h

/-- Written multiplications leave pieces legible. -/
theorem Legible.withTimes {pieces : List (Piece mode)} (h : Legible pieces)
    (last : Option Lexeme.Kind) : Legible (withTimes last pieces) := by
  induction pieces generalizing last with
  | nil => trivial
  | cons piece rest ih =>
    obtain ⟨hfits, hrest⟩ := h
    rw [Formula.withTimes]
    split
    · exact ⟨hfits.withTimes last, ih hrest last⟩
    · split
      · exact ⟨trivial, hfits.withTimes _, ih hrest _⟩
      · exact ⟨hfits.withTimes _, ih hrest _⟩

/-- Nothing is multiplied implicitly once the multiplications are written. -/
theorem isChain_withTimes (last : Option Lexeme.Kind) (pieces : List (Piece mode)) :
    (last.toList ++ (withTimes last pieces).filterMap Piece.kind?).IsChain
      fun left right ↦ joins left right = false := by
  induction pieces generalizing last with
  | nil => cases last <;> simp [withTimes]
  | cons piece rest ih =>
    rw [withTimes]
    cases hkind : piece.kind? with
    | none => simpa [hkind] using ih last
    | some kind =>
      have hrest := ih (some kind)
      rw [Option.toList_some, List.singleton_append] at hrest
      simp only
      split
      · rename_i hjoins
        rw [Piece.times, filterMap_kind?_mark, List.filterMap_cons_some hkind]
        cases last with
        | none => exact List.isChain_cons_cons.2 ⟨rfl, hrest⟩
        | some left =>
          refine List.isChain_cons_cons.2 ⟨?_, List.isChain_cons_cons.2 ⟨rfl, hrest⟩⟩
          cases left <;> rfl
      · rename_i hjoins
        rw [List.filterMap_cons_some hkind]
        cases last with
        | none => exact hrest
        | some left => exact List.isChain_cons_cons.2 ⟨Bool.eq_false_iff.2 hjoins, hrest⟩

/-! ### Both insertions -/

/-- The lexemes of pieces are written, not inserted. -/
theorem implicit_lexemesAt (position : Nat) (pieces : List (Piece mode)) :
    ∀ lexeme ∈ lexemesAt position pieces, lexeme.implicit = false := by
  induction pieces generalizing position with
  | nil => exact fun _ h ↦ absurd h List.not_mem_nil
  | cons piece rest ih =>
    rw [lexemesAt]
    split
    · exact ih _
    · exact List.forall_mem_cons.2 ⟨rfl, ih _⟩

/-- The places after a lexeme, if the next one is not implicit itself. -/
theorem joints_insertTimesAfter_cons (last : Option Lexeme.Kind) (distance : Nat) {lexeme : Lexeme}
    (h : lexeme.implicit = false) (rest : List Lexeme) :
    joints (insertTimesAfter last distance (lexeme :: rest)) =
      if joinsAfter last lexeme.kind then
        lexeme.span.start :: joints (insertTimesAfter (some lexeme.kind) (distance + 1) rest)
      else joints (insertTimesAfter (some lexeme.kind) distance rest) := by
  have hshift (distance : Nat) (others : List Lexeme) :
      joints (lexeme.shift distance :: others) = joints others :=
    joints_cons (show (lexeme.shift distance).implicit = false from h) others
  rw [insertTimesAfter]
  split
  · rw [joints, hshift]
    rfl
  · rw [hshift]

/-- The places of pieces are not in front of the pieces. -/
theorem le_of_mem_joints {last : Option Lexeme.Kind} {distance position : Nat}
    {pieces : List (Piece mode)} {place : Nat}
    (h : place ∈ joints (insertTimesAfter last distance (lexemesAt position pieces))) :
    position ≤ place := by
  induction pieces generalizing last distance position with
  | nil => exact absurd h List.not_mem_nil
  | cons piece rest ih =>
    have hrest {last : Option Lexeme.Kind} {distance : Nat}
        (h : place ∈ joints (insertTimesAfter last distance
          (lexemesAt (Text.Span.ofChars position piece.text).stop rest))) : position ≤ place :=
      Nat.le_trans (Nat.le_add_right _ _) (ih h)
    rw [lexemesAt] at h
    cases hkind : piece.kind? with
    | none =>
      simp only [hkind] at h
      exact hrest h
    | some kind =>
      simp only [hkind] at h
      rw [joints_insertTimesAfter_cons _ _ rfl] at h
      split at h
      · rcases List.mem_cons.1 h with rfl | h
        · exact Nat.le_refl _
        · exact hrest h
      · exact hrest h

/-- A piece gets a `*` in front if it is starred, when the other places come after it. -/
theorem insertStars_spell_cons {places starts : List Nat} {position : Nat} {piece : Piece mode}
    {starred : Prop} [Decidable starred]
    (hplaces : ∀ place, position ≤ place →
      (place ∈ places ↔ (starred ∧ place = position) ∨ place ∈ starts))
    (hstarts : ∀ place ∈ starts, position + Text.byteLength piece.text ≤ place)
    (rest : List (Piece mode)) :
    insertStars places position (spell (piece :: rest)) =
      (if starred then ['*'] else []) ++ (piece.text ++
        insertStars places (position + Text.byteLength piece.text) (spell rest)) := by
  have hsize : 0 < Text.byteLength piece.text :=
    Nat.lt_of_lt_of_le piece.first.utf8Size_pos (Nat.le_add_right _ _)
  have hmem : position ∈ places ↔ starred := by
    rw [hplaces position (Nat.le_refl _)]
    refine ⟨?_, fun hstarred ↦ .inl ⟨hstarred, rfl⟩⟩
    rintro (⟨hstarred, -⟩ | hstart)
    · exact hstarred
    · have := hstarts position hstart
      omega
  show insertStars places position (piece.text ++ spell rest) = _
  rw [insertStars_piece]
  · simp only [hmem]
  · intro place hplace
    rcases Nat.le_total place position with hle | hle
    · exact .inl hle
    · rcases (hplaces place hle).1 hplace with ⟨-, rfl⟩ | hstart
      · exact .inl (Nat.le_refl _)
      · exact .inr (hstarts place hstart)

/-- The stars are put in front of the pieces that are multiplied. -/
theorem insertStars_spell {places : List Nat} (last : Option Lexeme.Kind) (distance : Nat)
    {position : Nat} (pieces : List (Piece mode))
    (h : ∀ place, position ≤ place → (place ∈ places ↔
      place ∈ joints (insertTimesAfter last distance (lexemesAt position pieces)))) :
    insertStars places position (spell pieces) = spell (withTimes last pieces) := by
  induction pieces generalizing last distance position with
  | nil => rfl
  | cons piece rest ih =>
    -- the places of the pieces after the first one
    let starts (last : Option Lexeme.Kind) (distance : Nat) : List Nat :=
      joints (insertTimesAfter last distance
        (lexemesAt (position + Text.byteLength piece.text) rest))
    have hcons (starred : Prop) [Decidable starred] (last : Option Lexeme.Kind) (distance : Nat)
        (hplaces : ∀ place, position ≤ place →
          (place ∈ places ↔ (starred ∧ place = position) ∨ place ∈ starts last distance)) :
        insertStars places position (spell (piece :: rest)) =
          (if starred then ['*'] else []) ++ (piece.text ++ spell (withTimes last rest)) := by
      have hsize : 0 < Text.byteLength piece.text :=
        Nat.lt_of_lt_of_le piece.first.utf8Size_pos (Nat.le_add_right _ _)
      rw [insertStars_spell_cons hplaces fun _ hplace ↦ le_of_mem_joints hplace,
        ih last distance fun place hle ↦ ?_]
      rw [hplaces place (by omega)]
      refine ⟨?_, .inr⟩
      rintro (⟨-, rfl⟩ | hstart)
      · omega
      · exact hstart
    rw [lexemesAt] at h
    rw [withTimes]
    cases hkind : piece.kind? with
    | none =>
      simp only [hkind] at h
      refine hcons False last distance fun place hle ↦ ?_
      rw [h place hle]
      simp [starts, Text.Span.ofChars, Text.Span.ofLength]
    | some kind =>
      simp only [hkind] at h
      rw [joints_insertTimesAfter_cons _ _ rfl] at h
      simp only
      by_cases hjoins : joinsAfter last kind = true
      · rw [if_pos hjoins]
        refine hcons True (some kind) (distance + 1) fun place hle ↦ ?_
        rw [h place hle]
        simp [hjoins, starts, Text.Span.ofChars, Text.Span.ofLength]
      · rw [if_neg hjoins]
        refine hcons False (some kind) distance fun place hle ↦ ?_
        rw [h place hle]
        simp [hjoins, starts, Text.Span.ofChars, Text.Span.ofLength]

/-- The lexemes with implicit multiplications are those of the pieces with written ones, at their
offsets. -/
theorem map_insertTimesAfter (last : Option Lexeme.Kind) (distance position : Nat)
    (pieces : List (Piece mode)) :
    (insertTimesAfter last distance (lexemesAt position pieces)).map
        (fun lexeme ↦ (lexeme.kind, lexeme.offset)) =
      (lexemesAt (position + distance) (withTimes last pieces)).map
        fun lexeme ↦ (lexeme.kind, lexeme.span.start) := by
  induction pieces generalizing last distance position with
  | nil => rfl
  | cons piece rest ih =>
    have hstop (distance : Nat) : (Text.Span.ofChars position piece.text).stop + distance =
        (Text.Span.ofChars (position + distance) piece.text).stop := by
      simp only [Text.Span.ofChars, Text.Span.ofLength]
      omega
    rw [withTimes, lexemesAt]
    cases hkind : piece.kind? with
    | none =>
      simp only [lexemesAt, hkind]
      rw [ih, hstop]
    | some kind =>
      simp only [insertTimesAfter]
      split
      · simp only [lexemesAt, hkind, List.map_cons, ih, hstop]
        rfl
      · simp only [lexemesAt, hkind, List.map_cons, ih, hstop]
        rfl

/-! ### Texts without lexical faults -/

/-- A text whose lexemes are read without a fault is the text of legible pieces. -/
theorem exists_pieces_of_lex {text : List Char} (h : (lex mode text).fault = none) :
    ∃ pieces : List (Piece mode), spell pieces = text ∧ Legible pieces := by
  have hlexed : lexFrom mode 0 text = ((lexFrom mode 0 text).1, none) := Prod.ext rfl h
  exact exists_pieces hlexed

/-- The kinds of the lexemes of pieces, with the implicit multiplications. -/
def kindsOf (pieces : List (Piece mode)) : List Lexeme.Kind :=
  (withTimes none pieces).filterMap Piece.kind?

/-- The lexemes of legible pieces have their kinds, with the implicit multiplications. -/
theorem map_kind_lex_spell {pieces : List (Piece mode)} (h : Legible pieces) :
    (lex mode (spell pieces)).lexemes.map Lexeme.kind = kindsOf pieces := by
  have hmap := congrArg (List.map Prod.fst) (map_insertTimesAfter none 0 0 pieces)
  rw [lex_spell h, insertTimes_eq_insertTimesAfter, kindsOf, ← map_kind_lexemesAt 0]
  simpa [List.map_map, Function.comp_def] using hmap

/-- A text whose lexemes are read without a fault is read as these lexemes are. -/
theorem parse_token_eq_read {text : List Char} (h : (lex mode text).fault = none) :
    Reader.token.parse mode text =
      (Source.read ⟨(lex mode text).lexemes, Text.byteLength text⟩).outcome := by
  have hlexed : (lexRecorded mode text).outcome = .ok (lex mode text).lexemes := by
    show (lex mode text).toExcept = _
    rw [Lexed.toExcept, h]
  show (readLexemes mode text).outcome = _
  rw [readLexemes, Recorded.outcome_andThen, hlexed]
  rfl

/-- The verdict on a text whose lexemes are read without a fault. -/
theorem withoutRegion_parse_token {text : List Char} (h : (lex mode text).fault = none) :
    withoutRegion (Reader.token.parse mode text) =
      verdictOf ((lex mode text).lexemes.map Lexeme.kind) := by
  rw [parse_token_eq_read h]
  exact verdict_read _ _

/-- Writing the implicit multiplications of a text out is the same as inserting them: the text with
the stars has the same lexemes, none of them implicit, at the positions that the offsets count, and
it is read as the same tree or with the same cause of a fault. -/
theorem lex_writeTimes {text : List Char} (h : (lex mode text).fault = none) :
    (lex mode (writeTimes mode text)).fault = none ∧
      (lex mode (writeTimes mode text)).lexemes.map Lexeme.kind =
        (lex mode text).lexemes.map Lexeme.kind ∧
      (∀ lexeme ∈ (lex mode (writeTimes mode text)).lexemes, lexeme.implicit = false) ∧
      (lex mode (writeTimes mode text)).lexemes.map (fun lexeme ↦ lexeme.span.start) =
        (lex mode text).lexemes.map Lexeme.offset ∧
      withoutRegion (Reader.token.parse mode (writeTimes mode text)) =
        withoutRegion (Reader.token.parse mode text) := by
  -- both texts are spelled with pieces, and what is spelled is lexed to its pieces
  obtain ⟨pieces, rfl, hlegible⟩ := exists_pieces_of_lex h
  have hwritten : writeTimes mode (spell pieces) = spell (withTimes none pieces) := by
    rw [writeTimes, lex_spell hlegible, insertTimes_eq_insertTimesAfter]
    exact insertStars_spell none 0 pieces fun _ _ ↦ Iff.rfl
  have hlex : lex mode (spell (withTimes none pieces)) =
      ⟨lexemesAt 0 (withTimes none pieces), none⟩ := by
    rw [lex_spell (hlegible.withTimes none), insertTimes_eq]
    rw [map_kind_lexemesAt]
    exact isChain_withTimes none pieces
  have hkinds : (lexemesAt 0 (withTimes none pieces)).map Lexeme.kind =
      (lex mode (spell pieces)).lexemes.map Lexeme.kind := by
    rw [map_kind_lexemesAt, map_kind_lex_spell hlegible, kindsOf]
  have hoffsets : (lexemesAt 0 (withTimes none pieces)).map (fun lexeme ↦ lexeme.span.start) =
      (lex mode (spell pieces)).lexemes.map Lexeme.offset := by
    have hmap := congrArg (List.map Prod.snd) (map_insertTimesAfter none 0 0 pieces)
    rw [lex_spell hlegible, insertTimes_eq_insertTimesAfter]
    simpa [List.map_map, Function.comp_def] using hmap.symm
  have hfault : (lex mode (spell (withTimes none pieces))).fault = none := by rw [hlex]
  rw [hwritten, withoutRegion_parse_token hfault, withoutRegion_parse_token h]
  rw [hlex]
  exact ⟨rfl, hkinds, implicit_lexemesAt 0 _, hoffsets, by rw [hkinds]⟩

/-- The stars of `2x sin(y)-3z` stand in front of `x`, the function and `z`. -/
theorem lex_writeTimes_products :
    (lex .multiVariable "2x sin(y)-3z".toList).fault = none ∧
      writeTimes .multiVariable "2x sin(y)-3z".toList = "2*x *sin(y)-3*z".toList ∧
      (lex .multiVariable "2*x *sin(y)-3*z".toList).lexemes.map (fun lexeme ↦ lexeme.span.start) =
        (lex .multiVariable "2x sin(y)-3z".toList).lexemes.map Lexeme.offset := by
  have hfault : (lex .multiVariable "2x sin(y)-3z".toList).fault = none := by decide +kernel
  have hstars : writeTimes .multiVariable "2x sin(y)-3z".toList = "2*x *sin(y)-3*z".toList := by
    decide +kernel
  refine ⟨hfault, hstars, ?_⟩
  rw [← hstars]
  exact (lex_writeTimes hfault).2.2.2.1

end Nabla.Formula
