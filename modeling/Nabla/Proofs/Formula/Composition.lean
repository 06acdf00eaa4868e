import Nabla.Proofs.Formula.CharacterSequence
import Nabla.Proofs.Formula.WrittenTimes

/-!
# Composition

Whatever text is read as a tree, it is read as that tree inside parentheses, and with an operator
between two such groups the trees are the operands (`parse_compose`). This holds for both readers
and for every text they accept, also for those in which operators and operands do not alternate.
-/

namespace Nabla.Formula

variable {mode : Mode}

/-! ### Kinds of pieces -/

/-- Nothing is multiplied with a lexeme that is no value. -/
theorem withTimes_some {last : Lexeme.Kind} (h : last.isValue = false)
    (pieces : List (Piece mode)) : withTimes (some last) pieces = withTimes none pieces := by
  induction pieces with
  | nil => rfl
  | cons piece rest ih =>
    have hjoins (kind : Lexeme.Kind) : joinsAfter (some last) kind = false := by
      rw [joinsAfter, Option.any_some, joins, h, Bool.false_and]
    rw [withTimes, withTimes, ih]
    simp only [hjoins]
    rfl

/-- Marks that no implicit multiplication stands in front of. -/
def Mark.endsProduct (written : Mark) : Bool := !written.kind.isFunction

/-- A mark is no value. -/
theorem isValue_kind_mark (written : Mark) : written.kind.isValue = false := by
  cases written with
  | operator op => cases op <;> rfl
  | _ => rfl

/-- No product is inserted across a mark that ends one. -/
theorem withTimes_append_mark {written : Mark} (h : written.endsProduct = true)
    (last : Option Lexeme.Kind) (front back : List (Piece mode)) :
    withTimes last (front ++ .mark written :: back) =
      withTimes last front ++ .mark written :: withTimes none back := by
  induction front generalizing last with
  | nil =>
    have hjoins : joinsAfter last written.kind = false := by
      cases last with
      | none => rfl
      | some left =>
        rw [joinsAfter, Option.any_some, joins, isValue_kind_mark, Bool.false_or]
        rw [Mark.endsProduct, Bool.not_eq_true'] at h
        rw [h, Bool.and_false]
    show (if joinsAfter last written.kind = true then _ else _) = _
    rw [if_neg (Bool.eq_false_iff.1 hjoins), withTimes_some (isValue_kind_mark written)]
    rfl
  | cons piece rest ih =>
    rw [List.cons_append, withTimes, withTimes]
    cases piece.kind? with
    | none => exact congrArg (piece :: ·) (ih last)
    | some kind =>
      simp only [ih]
      split <;> rfl

/-- The kinds on both sides of a mark that ends a product. -/
theorem kindsOf_append_mark {written : Mark} (h : written.endsProduct = true)
    (front back : List (Piece mode)) :
    kindsOf (front ++ .mark written :: back) = kindsOf front ++ written.kind :: kindsOf back := by
  rw [kindsOf, withTimes_append_mark h, List.filterMap_append, filterMap_kind?_mark]
  rfl

/-- The kind of a mark in front of others. -/
theorem kindsOf_mark (written : Mark) (pieces : List (Piece mode)) :
    kindsOf (.mark written :: pieces) = written.kind :: kindsOf pieces := by
  show (Piece.mark written :: withTimes (some written.kind) pieces).filterMap Piece.kind? = _
  rw [withTimes_some (isValue_kind_mark written)]
  rfl

/-- A space in front has no kind. -/
theorem kindsOf_space (pieces : List (Piece mode)) : kindsOf (.space :: pieces) = kindsOf pieces :=
  rfl

/-! ### Pieces inside parentheses -/

/-- Pieces inside parentheses. -/
def enclosedPieces (pieces : List (Piece mode)) : List (Piece mode) :=
  .mark .openParen :: (pieces ++ [.mark .closeParen])

/-- Pieces in parentheses spell a text in parentheses. -/
theorem spell_enclosedPieces (pieces : List (Piece mode)) :
    spell (enclosedPieces pieces) = enclosed (spell pieces) := by
  show '(' :: spell (pieces ++ [.mark .closeParen]) = _
  rw [spell_append]
  rfl

/-- The kinds of pieces in parentheses are the kinds of the pieces in parentheses. -/
theorem kindsOf_enclosedPieces (pieces rest : List (Piece mode)) :
    kindsOf (enclosedPieces pieces ++ rest) =
      .openParen :: (kindsOf pieces ++ .closeParen :: kindsOf rest) := by
  have happend : enclosedPieces pieces ++ rest =
      .mark .openParen :: (pieces ++ .mark .closeParen :: rest) := by
    simp [enclosedPieces]
  rw [happend, kindsOf_mark, kindsOf_append_mark rfl]
  rfl

/-- A piece at the end of a text also fits in front of a mark. -/
theorem Piece.FitsBefore.mark {piece : Piece mode} (h : piece.FitsBefore none) (written : Mark) :
    piece.FitsBefore (some (.mark written)) := by
  cases piece with
  | number literal => exact fun other (heq : some _ = some (Piece.number other)) ↦ by cases heq
  | mark last =>
    cases last with
    | negative => exact fun (heq : some _ = some Piece.space) ↦ by cases heq
    | operator op =>
      cases op with
      | sub => cases h
      | _ => trivial
    | _ => trivial
  | _ => trivial

/-- Legible pieces with a mark between them are legible. -/
theorem Legible.append_mark {front back : List (Piece mode)} {written : Mark}
    (hfront : Legible front) (hback : Legible (.mark written :: back)) :
    Legible (front ++ .mark written :: back) := by
  induction front with
  | nil => exact hback
  | cons piece rest ih =>
    obtain ⟨hfits, hrest⟩ := hfront
    refine ⟨?_, ih hrest⟩
    cases rest with
    | nil => exact hfits.mark written
    | cons next others => exact hfits

/-- Legible pieces in parentheses are legible. -/
theorem Legible.enclosedPieces {pieces rest : List (Piece mode)} (h : Legible pieces)
    (hrest : Legible rest) : Legible (enclosedPieces pieces ++ rest) := by
  have happend : Formula.enclosedPieces pieces ++ rest =
      .mark .openParen :: (pieces ++ .mark .closeParen :: rest) := by
    simp [Formula.enclosedPieces]
  rw [happend]
  exact ⟨trivial, h.append_mark ⟨trivial, hrest⟩⟩

/-! ### Layouts of texts -/

/-- Lexemes are read as the tree of the layout they have. -/
theorem verdictOf_eq_ok_iff {kinds : List Lexeme.Kind} {e : Expr} :
    verdictOf kinds = .ok e ↔ ∃ layout : Layout, layout.kinds = kinds ∧ layout.tree? = some e := by
  have hkinds : (kinds.map Lexeme.Kind.bare).map Lexeme.kind = kinds := by
    rw [List.map_map]
    exact List.map_id kinds
  rw [verdictOf, Recorded.verdict, withoutRegion_eq_ok_iff, Recorded.outcome_eq_ok_iff]
  constructor
  · intro h
    obtain ⟨layout, hlayout⟩ := exists_layout_of_read h
    rw [layout.result?_read hlayout] at h
    exact ⟨layout, hlayout.symm.trans hkinds, h⟩
  · rintro ⟨layout, hlayout, htree⟩
    rw [layout.result?_read (hkinds.trans hlayout.symm)]
    exact htree

/-- A text is composed of pieces that have a layout with a tree. -/
structure Composed (mode : Mode) (text : List Char) (e : Expr) (pieces : List (Piece mode))
    (layout : Layout) : Prop where
  spells : spell pieces = text
  legible : Legible pieces
  kinds : layout.kinds = kindsOf pieces
  tree : layout.tree? = some e

/-- A text that is read is composed of pieces. -/
theorem exists_composed {text : List Char} {e : Expr} (h : Reader.token.parse mode text = .ok e) :
    ∃ pieces layout, Composed mode text e pieces layout := by
  have hfault : (lex mode text).fault = none := by
    change (readLexemes mode text).outcome = _ at h
    rw [readLexemes, Recorded.outcome_andThen] at h
    cases hlexed : (lex mode text).fault with
    | none => rfl
    | some fault =>
      have houtcome : (lexRecorded mode text).outcome = .error fault := by
        show (lex mode text).toExcept = _
        rw [Lexed.toExcept, hlexed]
      rw [houtcome] at h
      cases h
  obtain ⟨pieces, rfl, hlegible⟩ := exists_pieces_of_lex hfault
  have hverdict := withoutRegion_eq_ok_iff.2 h
  rw [withoutRegion_parse_token hfault, map_kind_lex_spell hlegible] at hverdict
  obtain ⟨layout, hkinds, htree⟩ := verdictOf_eq_ok_iff.1 hverdict
  exact ⟨pieces, layout, rfl, hlegible, hkinds, htree⟩

/-- A text that is composed of pieces is read as their tree. -/
theorem Composed.parse {text : List Char} {e : Expr} {pieces : List (Piece mode)} {layout : Layout}
    (h : Composed mode text e pieces layout) : Reader.token.parse mode text = .ok e := by
  obtain ⟨rfl, hlegible, hkinds, htree⟩ := h
  have hfault : (lex mode (spell pieces)).fault = none := by rw [lex_spell hlegible]
  refine withoutRegion_eq_ok_iff.1 ?_
  rw [withoutRegion_parse_token hfault, map_kind_lex_spell hlegible]
  exact verdictOf_eq_ok_iff.2 ⟨layout, hkinds, htree⟩

/-- The mark that an opener is written with. -/
def Opener.mark : Opener → Mark
  | sine => .sine
  | cosine => .cosine
  | negation => .negative

namespace Composed

variable {text other : List Char} {first second : Expr} {pieces others : List (Piece mode)}
  {layout following : Layout}

/-- A composed text in parentheses is composed. -/
theorem enclosed (h : Composed mode text first pieces layout) :
    Composed mode (enclosed text) first (enclosedPieces pieces) (.group layout .nil) := by
  have hlegible := h.legible.enclosedPieces (show Legible [] from trivial)
  have hkinds := kindsOf_enclosedPieces pieces []
  rw [List.append_nil] at hlegible hkinds
  refine ⟨?_, hlegible, ?_, Layout.tree?_group h.tree⟩
  · rw [spell_enclosedPieces, h.spells]
  · rw [hkinds, ← h.kinds]
    rfl

/-- A function name or a `-` in front of a group belongs to the group. -/
theorem opened (h : Composed mode text first pieces layout) (opener : Opener) :
    Composed mode ((Piece.mark opener.mark : Piece mode).text ++ Formula.enclosed text)
      (opener.apply first) (.mark opener.mark :: enclosedPieces pieces)
      (.owned 0 opener layout .nil) := by
  have hfits : (Piece.mark opener.mark : Piece mode).FitsBefore (enclosedPieces pieces).head? := by
    cases opener with
    | negation =>
      exact fun (heq : some (Piece.mark .openParen) = some Piece.space) ↦ by cases heq
    | _ => trivial
  have hkind : opener.mark.kind = opener.kind := by cases opener <;> rfl
  have hkinds := kindsOf_enclosedPieces pieces []
  rw [List.append_nil] at hkinds
  refine ⟨?_, ⟨hfits, h.enclosed.legible⟩, ?_, Layout.tree?_owned h.tree opener⟩
  · rw [← h.enclosed.spells]
    rfl
  · rw [kindsOf_mark, hkinds, ← h.kinds, hkind]
    rfl

/-- An operator between two groups, with single spaces around it. -/
theorem joined (h : Composed mode text first pieces layout)
    (hother : Composed mode other second others following) (op : Operator) :
    Composed mode (joined text op other) (.binary op first second)
      (enclosedPieces pieces ++ .space :: .mark (.operator op) :: .space :: enclosedPieces others)
      (.group layout (.operator op (.group following .nil))) := by
  have hfits : (Piece.mark (.operator op) : Piece mode).FitsBefore (some .space) := by
    cases op with
    | sub => rfl
    | _ => trivial
  have hkinds := kindsOf_enclosedPieces others []
  rw [List.append_nil] at hkinds
  refine ⟨?_, h.legible.enclosedPieces ⟨trivial, hfits, trivial, hother.enclosed.legible⟩, ?_,
    Layout.tree?_between h.tree hother.tree op⟩
  · rw [spell_append, h.enclosed.spells, Formula.joined, ← hother.enclosed.spells]
    rfl
  · rw [kindsOf_enclosedPieces, kindsOf_space, kindsOf_mark, kindsOf_space, hkinds, ← h.kinds,
      ← hother.kinds]
    rfl

end Composed

/-! ### Both readers -/

/-- Texts between parentheses are read as they are alone, and the trees of two such texts are the
operands of an operator between them. -/
theorem parse_enclosed_and_joined (reader : Reader) {left right : List Char} {first second : Expr}
    (hleft : reader.parse mode left = .ok first) (hright : reader.parse mode right = .ok second) :
    reader.parse mode (enclosed left) = .ok first ∧
      ∀ op, reader.parse mode (joined left op right) = .ok (.binary op first second) := by
  cases reader with
  | token =>
    obtain ⟨pieces, layout, hcomposed⟩ := exists_composed hleft
    obtain ⟨others, following, hother⟩ := exists_composed hright
    exact ⟨hcomposed.enclosed.parse, fun op ↦ (hcomposed.joined hother op).parse⟩
  | direct =>
    have hparse {text : List Char} {e : Expr} :
        Reader.direct.parse mode text = .ok e ↔ (readCharacters mode text).result? = some e :=
      Recorded.outcome_eq_ok_iff
    obtain ⟨elements, hscanned, htree⟩ := exists_scanned (hparse.1 hleft)
    obtain ⟨others, hother, hotherTree⟩ := exists_scanned (hparse.1 hright)
    have hincreasing := hscanned.spread.increasing
    have hotherIncreasing := hother.spread.increasing
    refine ⟨hparse.2 ?_, fun op ↦ hparse.2 ?_⟩
    · rw [hscanned.enclosed.result?_read, Gathered.tree?_enclose 1 1 hincreasing, htree]
    · have hjoined := hscanned.joined hother op
      rw [hjoined.result?_read]
      refine Gathered.tree?_between hjoined.spread.increasing ?_
        ((Gathered.tree?_enclose _ _ hincreasing).trans htree)
        ((Gathered.tree?_enclose _ _ hotherIncreasing).trans hotherTree)
      -- every other operator is inside parentheses
      intro occurrence hoccurrence
      have hdepth : 1 ≤ occurrence.precedence.depth := by
        rcases List.mem_append.1 hoccurrence with hmem | hmem
        · exact le_depth_of_mem_enclose _ _ hmem
        · exact le_depth_of_mem_enclose _ _ hmem
      exact Occurrence.comesFirst_iff.2 (.inl hdepth)

/-- Reading is compositional. Parentheses around a text keep its tree, an operator between two texts
in parentheses takes both trees, and the reader of lexemes applies a function name or a `-` in front
of the parentheses to the tree. -/
theorem parse_compose (reader : Reader) {left right : List Char} {first second : Expr}
    (hleft : reader.parse mode left = .ok first) (hright : reader.parse mode right = .ok second) :
    reader.parse mode (enclosed left) = .ok first ∧
      (∀ op, reader.parse mode (joined left op right) = .ok (.binary op first second)) ∧
      (reader = .token →
        reader.parse mode ("sin".toList ++ enclosed left) = .ok (.call .sin first) ∧
        reader.parse mode ("cos".toList ++ enclosed left) = .ok (.call .cos first) ∧
        reader.parse mode ("-".toList ++ enclosed left) = .ok (.neg first)) := by
  obtain ⟨henclosed, hjoined⟩ := parse_enclosed_and_joined reader hleft hright
  refine ⟨henclosed, hjoined, ?_⟩
  rintro rfl
  obtain ⟨pieces, layout, hcomposed⟩ := exists_composed hleft
  exact ⟨(hcomposed.opened .sine).parse, (hcomposed.opened .cosine).parse,
    (hcomposed.opened .negation).parse⟩

/-- `x () + y` is read as a sum despite its empty group, and it composes like any other text. -/
theorem parse_compose_empty_group :
    Reader.token.parse .multiVariable "x () + y".toList =
        .ok (.binary .add (.symbol .x) (.symbol .y)) ∧
      Reader.token.parse .multiVariable "(x () + y) * (x () + y)".toList =
        .ok (.binary .mul (.binary .add (.symbol .x) (.symbol .y))
          (.binary .add (.symbol .x) (.symbol .y))) ∧
      Reader.token.parse .multiVariable "-(x () + y)".toList =
        .ok (.neg (.binary .add (.symbol .x) (.symbol .y))) := by
  have hcomposed : Composed .multiVariable "x () + y".toList
      (.binary .add (.symbol .x) (.symbol .y))
      [.symbol .x rfl, .space, .mark .openParen, .mark .closeParen, .space,
        .mark (.operator .add), .space, .symbol .y rfl]
      (.value 0 (.symbol .x) (.symbol .x) rfl (.group .nil (.operator .add
        (.value 0 (.symbol .y) (.symbol .y) rfl .nil)))) := by
    refine ⟨rfl, ?_, rfl, rfl⟩
    simp [Legible, Piece.FitsBefore]
  have hparse := hcomposed.parse
  obtain ⟨-, hjoined, hopened⟩ := parse_compose .token hparse hparse
  exact ⟨hparse, hjoined .mul, (hopened rfl).2.2⟩

end Nabla.Formula
