import Nabla.Proofs.Formula.WrittenTimes

/-!
# Spaces between tokens

Spaces can be put in at the start of a text and after every token that is no `-`. The text with the
spaces has the same lexemes, and so it is read as the same tree or with the same cause of a fault
(`lex_insertSpaces`). After a `-` a space tells a subtraction from a negation.

The proof goes through both texts token by token. A token ends where the next character cannot
continue it, and neither can a space.
-/

namespace Nabla.Formula

variable {mode : Mode}

/-! ### Spaces in a text -/

/-- A text that begins at a byte position, with a number of spaces put in at every position. -/
def insertSpaces (count : Nat → Nat) (position : Nat) : List Char → List Char
  | [] => List.replicate (count position) ' '
  | c :: rest =>
      List.replicate (count position) ' ' ++ c :: insertSpaces count (position + c.utf8Size) rest

/-- The places where spaces can be put in: the start of a text, and the end of every token that is
no `-`. -/
def TakesSpaces (text : List Char) (position : Nat) : Prop :=
  position = 0 ∨ ∃ token ∈ Token.scan text, token.span.stop = position ∧ token.kind ≠ .minus

/-- Where no spaces are put in the text stays as it is. -/
theorem insertSpaces_append {count : Nat → Nat} {position : Nat} {front : List Char}
    (h : ∀ place, position ≤ place → place < position + Text.byteLength front → count place = 0)
    (back : List Char) :
    insertSpaces count position (front ++ back) =
      front ++ insertSpaces count (position + Text.byteLength front) back := by
  induction front generalizing position with
  | nil => rfl
  | cons c rest ih =>
    have hsize : 0 < c.utf8Size := c.utf8Size_pos
    rw [Text.byteLength] at h
    rw [List.cons_append, insertSpaces, h position (Nat.le_refl _) (by omega), ih, Text.byteLength,
      Nat.add_assoc]
    · rfl
    · exact fun place hle hlt ↦ h place (by omega) (by omega)

/-- A text with spaces begins with a space or with the first character of the text. -/
theorem head?_insertSpaces (count : Nat → Nat) (position : Nat) (text : List Char) :
    (insertSpaces count position text).head? =
      if count position = 0 then text.head? else some ' ' := by
  cases text <;> cases hcount : count position <;> simp [insertSpaces, hcount, List.replicate_succ]

/-- Spaces in front of a text are skipped. -/
theorem lexFrom_replicate (number position : Nat) (text : List Char) :
    lexFrom mode position (List.replicate number ' ' ++ text) =
      lexFrom mode (position + number) text := by
  induction number generalizing position with
  | zero => rfl
  | succ number ih =>
    rw [List.replicate_succ, List.cons_append, lexFrom_space, ih]
    congr 1
    omega

/-! ### One token -/

/-- A token ends behind its start. -/
theorem lt_stop_of_mem_scanFrom {position : Nat} {text : List Char} {token : Token}
    (h : token ∈ Token.scanFrom position text) : position < token.span.stop := by
  induction position, text using Token.scanFrom.induct with
  | case1 position =>
    rw [Token.scanFrom] at h
    exact absurd h List.not_mem_nil
  | case2 position c rest kind number hfirst shown span ih =>
    have hstop : position < span.stop :=
      Nat.lt_add_of_pos_right (Nat.lt_of_lt_of_le c.utf8Size_pos (Nat.le_add_right _ _))
    rw [Token.scanFrom_cons hfirst] at h
    rcases List.mem_cons.1 h with rfl | h
    · exact hstop
    · exact Nat.lt_trans hstop (ih h)

/-- A token other than spaces that stands for a lexeme is the same in front of another text, if that
is empty or begins with a space or like the text after the token. -/
theorem Token.first_append {c : Char} {rest other : List Char} {kind : Token.Kind} {number : Nat}
    (hfirst : Token.first c rest = (kind, number)) (hspace : c ≠ ' ') (hkind : kind ≠ .other)
    (hother : ∀ next ∈ other.head?, (rest.drop number).head? = some next ∨ next = ' ') :
    Token.first c (rest.take number ++ other) = (kind, (rest.take number).length) := by
  unfold Token.first at hfirst ⊢
  rw [if_neg hspace] at hfirst ⊢
  by_cases hdigit : c.isDigit = true
  · rw [if_pos hdigit] at hfirst ⊢
    obtain ⟨rfl, rfl⟩ := Prod.mk.inj hfirst
    rw [Text.drop_length_takeWhile] at hother
    have hends : ∀ first ∈ other.head?, Decimal.isNumeralChar first = false := by
      intro first hhead
      rcases hother first hhead with hsame | rfl
      · have hnot := List.head?_dropWhile_not Decimal.isNumeralChar rest
        rw [hsame] at hnot
        exact hnot
      · rfl
    rw [Text.take_length_takeWhile,
      (Decimal.span_eq (List.all_eq_true.1 List.all_takeWhile) hends).1]
  · rw [if_neg hdigit] at hfirst ⊢
    by_cases hsine : c = 's' ∧ rest.take 2 = ['i', 'n']
    · rw [if_pos hsine] at hfirst
      obtain ⟨rfl, rfl⟩ := Prod.mk.inj hfirst
      rw [hsine.2]
      exact if_pos ⟨hsine.1, rfl⟩
    · rw [if_neg hsine] at hfirst
      by_cases hcosine : c = 'c' ∧ rest.take 2 = ['o', 's']
      · rw [if_pos hcosine] at hfirst
        obtain ⟨rfl, rfl⟩ := Prod.mk.inj hfirst
        obtain ⟨rfl, htake⟩ := hcosine
        rw [htake]
        rfl
      · rw [if_neg hcosine] at hfirst
        obtain ⟨rfl, rfl⟩ := Prod.mk.inj hfirst
        -- the letters that function names begin with stand for nothing on their own
        have hs : c ≠ 's' := by
          rintro rfl
          exact hkind rfl
        have hc : c ≠ 'c' := by
          rintro rfl
          exact hkind rfl
        rw [if_neg fun h ↦ hs h.1, if_neg fun h ↦ hc h.1]
        rfl

/-- A token stands for the same lexeme at another place. Only a `-` depends on what comes after it.
-/
theorem classify_eq {kind : Token.Kind} {text : List Char} {span other : Text.Span}
    {beforeSpace otherSpace : Bool} (h : kind = .minus → beforeSpace = otherSpace) :
    classify mode ⟨kind, text, span⟩ beforeSpace =
      classify mode ⟨kind, text, other⟩ otherSpace := by
  cases kind
  case minus => rw [h rfl]; rfl
  all_goals rfl

/-- The first token of a text stands for a lexeme or for none. -/
theorem lexFrom_eq_of_first {c : Char} {rest : List Char} {tokenKind : Token.Kind}
    {number position : Nat} {kind? : Option Lexeme.Kind}
    (hfirst : Token.first c rest = (tokenKind, number))
    (hclassify : classify mode
      ⟨tokenKind, c :: rest.take number, .ofChars position (c :: rest.take number)⟩
      ((rest.drop number).head? == some ' ') = .ok kind?) :
    lexFrom mode position (c :: rest) =
      (lexFrom mode (Text.Span.ofChars position (c :: rest.take number)).stop
        (rest.drop number)).map
          (kind?.toList.map
            (⟨·, position, .ofChars position (c :: rest.take number), false⟩) ++ ·) id := by
  rw [lexFrom, Token.scanFrom_cons hfirst, classifyAll, startsWithSpaces_scanFrom, hclassify]
  cases kind? <;> rfl

/-- What a lexeme is, wherever it stands. -/
def Lexeme.face (lexeme : Lexeme) : Lexeme.Kind × Bool := (lexeme.kind, lexeme.implicit)

/-! ### All tokens -/

/-- Behind its start, spaces are put only into places of a text that take them. -/
def Fits (count : Nat → Nat) (position : Nat) (text : List Char) : Prop :=
  ∀ place, position < place → count place ≠ 0 →
    ∃ token ∈ Token.scanFrom position text, token.span.stop = place ∧ token.kind ≠ .minus

section FirstToken

variable {count : Nat → Nat} {position : Nat} {c : Char} {rest : List Char} {kind : Token.Kind}
  {number : Nat}

/-- A place behind the start is the end of the first token or behind it. -/
theorem Fits.cases (h : Fits count position (c :: rest))
    (hfirst : Token.first c rest = (kind, number)) {place : Nat} (hlt : position < place)
    (hne : count place ≠ 0) :
    (place = position + Text.byteLength (c :: rest.take number) ∧ kind ≠ .minus) ∨
      position + Text.byteLength (c :: rest.take number) < place ∧
        ∃ token ∈ Token.scanFrom (position + Text.byteLength (c :: rest.take number))
          (rest.drop number), token.span.stop = place ∧ token.kind ≠ .minus := by
  obtain ⟨token, hmem, rfl, hminus⟩ := h place hlt hne
  rw [Token.scanFrom_cons hfirst] at hmem
  rcases List.mem_cons.1 hmem with rfl | hmem
  · exact .inl ⟨rfl, hminus⟩
  · exact .inr ⟨lt_stop_of_mem_scanFrom hmem, token, hmem, rfl, hminus⟩

/-- Spaces that fit into a text fit behind its first token. -/
theorem Fits.after (h : Fits count position (c :: rest))
    (hfirst : Token.first c rest = (kind, number)) :
    Fits count (position + Text.byteLength (c :: rest.take number)) (rest.drop number) := by
  intro place hlt hne
  rcases h.cases hfirst (Nat.lt_of_le_of_lt (Nat.le_add_right _ _) hlt) hne with
    ⟨rfl, -⟩ | ⟨-, hafter⟩
  · exact absurd hlt (Nat.lt_irrefl _)
  · exact hafter

/-- There is no room behind a minus. -/
theorem Fits.count_eq_zero_of_minus (h : Fits count position (c :: rest))
    (hfirst : Token.first c rest = (.minus, number)) :
    count (position + Text.byteLength (c :: rest.take number)) = 0 := by
  by_contra hne
  have hlt : position < position + Text.byteLength (c :: rest.take number) :=
    Nat.lt_add_of_pos_right (Nat.lt_of_lt_of_le c.utf8Size_pos (Nat.le_add_right _ _))
  rcases h.cases hfirst hlt hne with ⟨-, hminus⟩ | ⟨hlt, -⟩
  · exact hminus rfl
  · exact Nat.lt_irrefl _ hlt

/-- No spaces are put into the first token. -/
theorem Fits.insertSpaces_cons (h : Fits count position (c :: rest))
    (hfirst : Token.first c rest = (kind, number)) :
    insertSpaces count position (c :: rest) =
      List.replicate (count position) ' ' ++ c :: (rest.take number ++
        insertSpaces count (position + Text.byteLength (c :: rest.take number))
          (rest.drop number)) := by
  have hsize : 0 < c.utf8Size := c.utf8Size_pos
  have happend := @insertSpaces_append count (position + c.utf8Size) (rest.take number)
    (fun place hle hlt ↦ by
      by_contra hne
      rcases h.cases hfirst (by omega) hne with ⟨heq, -⟩ | ⟨hbehind, -⟩
      all_goals
        rw [Text.byteLength] at *
        omega) (rest.drop number)
  rw [List.take_append_drop, Nat.add_assoc] at happend
  rw [insertSpaces, happend]
  rfl

/-- The first token stands for the same in the text with spaces. -/
theorem Fits.exists_lexFrom_cons (h : Fits count position (c :: rest))
    (hfirst : Token.first c rest = (kind, number)) {kind? : Option Lexeme.Kind}
    (hclassify : classify mode
      ⟨kind, c :: rest.take number, .ofChars position (c :: rest.take number)⟩
      ((rest.drop number).head? == some ' ') = .ok kind?) (moved : Nat) :
    ∃ start span next, lexFrom mode moved (insertSpaces count position (c :: rest)) =
      (lexFrom mode next (insertSpaces count
        (position + Text.byteLength (c :: rest.take number)) (rest.drop number))).map
          (kind?.toList.map (⟨·, start, span, false⟩) ++ ·) id := by
  rw [h.insertSpaces_cons hfirst, lexFrom_replicate]
  have hhead := head?_insertSpaces count (position + Text.byteLength (c :: rest.take number))
    (rest.drop number)
  -- what a minus is depends on whether a space follows, so none may be inserted there
  have hminus : kind = .minus →
      count (position + Text.byteLength (c :: rest.take number)) = 0 := by
    rintro rfl
    exact h.count_eq_zero_of_minus hfirst
  generalize insertSpaces count (position + Text.byteLength (c :: rest.take number))
    (rest.drop number) = after at hhead
  by_cases hspace : c = ' '
  · -- the spaces of the token are skipped as well
    subst hspace
    obtain ⟨rfl, rfl⟩ := Prod.mk.inj hfirst
    cases hclassify
    have hspaces : rest.take (rest.takeWhile (· == ' ')).length =
        List.replicate (rest.takeWhile (· == ' ')).length ' ' := by
      rw [Text.take_length_takeWhile]
      exact List.eq_replicate_of_mem fun c hc ↦
        eq_of_beq (List.all_eq_true.1 List.all_takeWhile c hc)
    rw [hspaces, ← List.cons_append, ← List.replicate_succ, lexFrom_replicate]
    exact ⟨0, ⟨0, 0⟩, _, rfl⟩
  · have hkind : kind ≠ .other := by
      rintro rfl
      cases hclassify
    have hsame : Token.first c (rest.take number ++ after) =
        (kind, (rest.take number).length) := by
      refine Token.first_append hfirst hspace hkind fun next hnext ↦ ?_
      rw [hhead] at hnext
      split at hnext
      · exact .inl hnext
      · exact .inr (Option.some.inj hnext).symm
    have hlexed := @lexFrom_eq_of_first mode c _ kind _ (moved + count position) kind? hsame
    rw [List.take_left, List.drop_left] at hlexed
    refine ⟨_, _, _, hlexed ?_⟩
    rw [← hclassify]
    refine classify_eq fun heq ↦ ?_
    rw [hhead, if_pos (hminus heq)]

end FirstToken

/-- The lexemes of a text without a fault are those of the text with spaces, at other places. -/
theorem lexFrom_insertSpaces {count : Nat → Nat} {position : Nat} {text : List Char}
    {lexemes : List Lexeme} (h : lexFrom mode position text = (lexemes, none))
    (hfits : Fits count position text) (moved : Nat) :
    ∃ others, lexFrom mode moved (insertSpaces count position text) = (others, none) ∧
      others.map Lexeme.face = lexemes.map Lexeme.face := by
  induction position, text using Token.scanFrom.induct generalizing lexemes moved with
  | case1 position =>
    refine ⟨lexemes, ?_, rfl⟩
    rw [← h, insertSpaces, ← List.append_nil (List.replicate _ _), lexFrom_replicate, lexFrom,
      lexFrom, Token.scanFrom, Token.scanFrom]
  | case2 position c rest kind number hfirst shown span =>
    rename_i ih
    obtain ⟨kind?, -, -, hclassify, -⟩ := exists_of_lexFrom_cons hfirst h
    rw [lexFrom_eq_of_first hfirst hclassify] at h
    obtain ⟨rfl, hfault⟩ := Prod.mk.inj h
    obtain ⟨start, other, next, hlexed⟩ := hfits.exists_lexFrom_cons hfirst hclassify moved
    obtain ⟨others, hothers, hfaces⟩ := ih (Prod.ext rfl hfault) (hfits.after hfirst) next
    refine ⟨_, hlexed.trans (congrArg (Prod.map _ id) hothers), ?_⟩
    cases kind? with
    | none => exact hfaces
    | some kind => exact congrArg ((kind, false) :: ·) hfaces

/-- The multiplications that are inserted depend on what the lexemes are. -/
theorem map_face_insertTimesAfter {lexemes others : List Lexeme}
    (h : others.map Lexeme.face = lexemes.map Lexeme.face) (last : Option Lexeme.Kind)
    (distance moved : Nat) :
    (insertTimesAfter last moved others).map Lexeme.face =
      (insertTimesAfter last distance lexemes).map Lexeme.face := by
  induction lexemes generalizing others last distance moved with
  | nil =>
    rw [List.map_eq_nil_iff.1 h]
    rfl
  | cons lexeme rest ih =>
    obtain ⟨other, following, rfl, hface, hrest⟩ := List.map_eq_cons_iff.1 h
    have hkind : other.kind = lexeme.kind := congrArg Prod.fst hface
    have hshift (distance moved : Nat) :
        (other.shift moved).face = (lexeme.shift distance).face := hface
    rw [insertTimesAfter, insertTimesAfter, hkind]
    split
    · simp only [List.map_cons, hshift (distance + 1), ih hrest _ (distance + 1)]
      rfl
    · simp only [List.map_cons, hshift distance, ih hrest _ distance]

/-- Spaces at the start of a text without lexical faults, and after its tokens other than `-`,
change nothing: the text with the spaces has the same lexemes, implicit where those of the text are,
and it is read as the same tree or with the same cause of a fault. -/
theorem lex_insertSpaces {text : List Char} {count : Nat → Nat} (h : (lex mode text).fault = none)
    (hcount : ∀ position, count position ≠ 0 → TakesSpaces text position) :
    (lex mode (insertSpaces count 0 text)).fault = none ∧
      (lex mode (insertSpaces count 0 text)).lexemes.map
          (fun lexeme ↦ (lexeme.kind, lexeme.implicit)) =
        (lex mode text).lexemes.map (fun lexeme ↦ (lexeme.kind, lexeme.implicit)) ∧
      withoutRegion (Reader.token.parse mode (insertSpaces count 0 text)) =
        withoutRegion (Reader.token.parse mode text) := by
  have hfits : Fits count 0 text := fun place hlt hne ↦
    (hcount place hne).resolve_left (Nat.ne_of_gt hlt)
  have hlexed : lexFrom mode 0 text = ((lexFrom mode 0 text).1, none) := Prod.ext rfl h
  obtain ⟨others, hothers, hfaces⟩ := lexFrom_insertSpaces hlexed hfits 0
  have hspaced : lex mode (insertSpaces count 0 text) = ⟨insertTimes 0 others, none⟩ := by
    show Lexed.mk (insertTimes 0 (lexFrom mode 0 (insertSpaces count 0 text)).1)
      (lexFrom mode 0 (insertSpaces count 0 text)).2 = _
    rw [hothers]
  have hfault : (lex mode (insertSpaces count 0 text)).fault = none := by rw [hspaced]
  have hsame : (lex mode (insertSpaces count 0 text)).lexemes.map Lexeme.face =
      (lex mode text).lexemes.map Lexeme.face := by
    rw [hspaced]
    show (insertTimes 0 others).map Lexeme.face =
      (insertTimes 0 (lexFrom mode 0 text).1).map Lexeme.face
    rw [insertTimes_eq_insertTimesAfter, insertTimes_eq_insertTimesAfter]
    exact map_face_insertTimesAfter hfaces none 0 0
  refine ⟨hfault, hsame, ?_⟩
  have hkinds := congrArg (List.map Prod.fst) hsame
  rw [List.map_map, List.map_map] at hkinds
  rw [withoutRegion_parse_token hfault, withoutRegion_parse_token h]
  exact congrArg verdictOf hkinds

/-- Spaces are put in after the number, after the function name and at both ends of `2x -sin(y)`,
but not after its `-`. -/
theorem lex_insertSpaces_call :
    let count : Nat → Nat := fun position ↦
      if position = 0 then 1 else if position = 1 then 2 else if position = 7 then 1
      else if position = 10 then 3 else 0
    (lex .multiVariable "2x -sin(y)".toList).fault = none ∧
      (∀ position, count position ≠ 0 → TakesSpaces "2x -sin(y)".toList position) ∧
      insertSpaces count 0 "2x -sin(y)".toList = " 2  x -sin (y)   ".toList ∧
      (lex .multiVariable " 2  x -sin (y)   ".toList).lexemes.map
          (fun lexeme ↦ (lexeme.kind, lexeme.implicit)) =
        (lex .multiVariable "2x -sin(y)".toList).lexemes.map
          (fun lexeme ↦ (lexeme.kind, lexeme.implicit)) := by
  intro count
  have hfault : (lex .multiVariable "2x -sin(y)".toList).fault = none := by decide +kernel
  have hends : ∀ position ∈ [1, 7, 10], ∃ token ∈ Token.scan "2x -sin(y)".toList,
      token.span.stop = position ∧ token.kind ≠ .minus := by decide +kernel
  have hcount : ∀ position, count position ≠ 0 → TakesSpaces "2x -sin(y)".toList position := by
    intro position hne
    by_cases hzero : position = 0
    · exact .inl hzero
    · refine .inr (hends position ?_)
      simp only [List.mem_cons, List.not_mem_nil, or_false]
      by_contra hother
      simp only [not_or] at hother
      exact hne (by simp only [count, if_neg hzero, if_neg hother.1, if_neg hother.2.1,
        if_neg hother.2.2])
  have hspaced : insertSpaces count 0 "2x -sin(y)".toList = " 2  x -sin (y)   ".toList := by
    decide +kernel
  refine ⟨hfault, hcount, hspaced, ?_⟩
  rw [← hspaced]
  exact (lex_insertSpaces hfault hcount).2.1

end Nabla.Formula
