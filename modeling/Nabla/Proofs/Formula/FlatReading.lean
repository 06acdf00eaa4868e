import Nabla.Proofs.Formula.LayoutExistence
import Nabla.Proofs.Formula.Relocation

/-!
# Lexemes without negations and calls

When every leaf is a single value, reading needs no ranges inside ranges: `flatElements` goes
through the lexemes once, counting the open parentheses. It works for lexemes at any indices, so it
serves the reader that counts lexemes as well as the one that counts bytes.
-/

namespace Nabla.Formula

/-- Whether a lexeme begins no leaf of several lexemes. -/
def Lexeme.Kind.isFlat : Lexeme.Kind → Bool
  | negative => false
  | sine => false
  | cosine => false
  | _ => true

/-- What a flat lexeme can be. -/
theorem Lexeme.Kind.cases_of_isFlat {kind : Lexeme.Kind} (h : kind.isFlat = true) :
    (∃ operand, kind.value? = some operand) ∨ (∃ op : Operator, kind = op.lexemeKind) ∨
      kind = .openParen ∨ kind = .closeParen := by
  cases hbegins : kind.beginsLeaf with
  | false => exact .inr (Lexeme.Kind.operator_or_paren hbegins)
  | true =>
    refine .inl ?_
    cases kind with
    | symbol name => exact ⟨_, rfl⟩
    | number numeral => exact ⟨_, rfl⟩
    | negative => cases h
    | sine => cases h
    | cosine => cases h
    | _ => cases hbegins

/-- The leaves and operators of kinds at indices, given the number of open parentheses. -/
def flatElements (depth : Nat) : List (Nat × Lexeme.Kind) → List Element
  | [] => []
  | (index, kind) :: rest =>
      match kind.value?, kind.operator? with
      | some operand, _ => .leaf index operand :: flatElements depth rest
      | none, some operator => .operator (.ofDepth index operator depth) :: flatElements depth rest
      | none, none => flatElements (if kind = .openParen then depth + 1 else depth - 1) rest

section Equations

variable {kind : Lexeme.Kind} (depth index : Nat) (rest : List (Nat × Lexeme.Kind))

/-- A value is a leaf at its index. -/
theorem flatElements_value {operand : Expr} (h : kind.value? = some operand) :
    flatElements depth ((index, kind) :: rest) =
      .leaf index operand :: flatElements depth rest := by
  simp only [flatElements, h]

/-- An operator has the depth of the parentheses that are open around it. -/
theorem flatElements_operator (op : Operator) :
    flatElements depth ((index, op.lexemeKind) :: rest) =
      .operator (.ofDepth index op depth) :: flatElements depth rest := by
  cases op <;> rfl

/-- An opening parenthesis is no element, and what follows is one deeper. -/
theorem flatElements_openParen :
    flatElements depth ((index, .openParen) :: rest) = flatElements (depth + 1) rest := rfl

/-- A closing parenthesis is no element, and what follows is one less deep. -/
theorem flatElements_closeParen :
    flatElements depth ((index, .closeParen) :: rest) = flatElements (depth - 1) rest := rfl

end Equations

/-- A flat list of lexemes is gathered in one go. -/
theorem Source.result?_gather_flat (source : Source) {items : List Placed}
    (h : ∀ item ∈ items, item.kind.isFlat = true) (depth : Nat) :
    (source.gather depth items).result? =
      some (.ofElements (flatElements depth (items.map fun item ↦ (item.index, item.kind)))) := by
  induction items generalizing depth with
  | nil =>
    rw [gather_nil]
    rfl
  | cons item rest ih =>
    obtain ⟨hitem, hrest⟩ := List.forall_mem_cons.1 h
    rw [List.map_cons]
    rcases Lexeme.Kind.cases_of_isFlat hitem with ⟨operand, hvalue⟩ | ⟨op, hop⟩ | hopen | hclose
    · rw [source.result?_gather_leaf depth (Lexeme.Kind.beginsLeaf_of_value? hvalue).1
        (extentOf_value hvalue), flatElements_value _ _ _ hvalue, ih hrest]
      rfl
    · rw [source.gather_operator depth hop, Recorded.result?_map, ih hrest, hop,
        flatElements_operator]
      rfl
    · rw [source.gather_openParen depth hopen, ih hrest, hopen, flatElements_openParen]
    · rw [source.gather_closeParen depth hclose, ih hrest, hclose, flatElements_closeParen]

/-- The elements stand at the indices of the kinds, in the same order. -/
theorem sublist_flatElements (depth : Nat) (spots : List (Nat × Lexeme.Kind)) :
    ((flatElements depth spots).map Element.index).Sublist (spots.map Prod.fst) := by
  induction spots generalizing depth with
  | nil => exact .slnil
  | cons spot rest ih =>
    unfold flatElements
    split
    · exact (ih depth).cons_cons _
    · exact (ih depth).cons_cons _
    · exact (ih _).cons _

/-- The elements stand in the order of their indices. -/
theorem increasing_flatElements {depth : Nat} {spots : List (Nat × Lexeme.Kind)}
    (h : spots.Pairwise fun first second ↦ first.1 < second.1) :
    Increasing (flatElements depth spots) :=
  List.pairwise_map.1 ((List.pairwise_map.2 h).sublist (sublist_flatElements depth spots))

/-- The elements of the same kinds at other indices. -/
theorem flatElements_relocate (place : Nat → Nat) (depth : Nat) (spots : List (Nat × Lexeme.Kind)) :
    flatElements depth (spots.map fun spot ↦ (place spot.1, spot.2)) =
      (flatElements depth spots).map (Element.relocate place) := by
  induction spots generalizing depth with
  | nil => rfl
  | cons spot rest ih =>
    obtain ⟨index, kind⟩ := spot
    rw [List.map_cons]
    unfold flatElements
    cases kind.value? with
    | some operand => exact congrArg (.leaf (place index) operand :: ·) (ih depth)
    | none =>
      cases kind.operator? with
      | some operator =>
        exact congrArg (.operator (.ofDepth (place index) operator depth) :: ·) (ih depth)
      | none => exact ih _

/-! ### Lexemes by their byte positions -/

/-- The kinds of lexemes at their byte positions. -/
def spots (lexemes : List Lexeme) : List (Nat × Lexeme.Kind) :=
  lexemes.map fun lexeme ↦ (lexeme.span.start, lexeme.kind)

/-- The first lexeme has the first spot. -/
theorem spots_cons (lexeme : Lexeme) (rest : List Lexeme) :
    spots (lexeme :: rest) = (lexeme.span.start, lexeme.kind) :: spots rest := rfl

/-- The operators of placed lexemes at their byte positions, given the opening parentheses that are
still to be closed, or the fault of the balance check. -/
def operatorsOf (opened items : List Placed) : Except Fault (List Occurrence) :=
  match balanceFault? opened items with
  | some fault => .error fault
  | none => .ok (occurrences (flatElements opened.length
      (items.map fun item ↦ (item.span.start, item.kind))))

section Operators

variable {item : Placed} (opened rest : List Placed)

/-- A value is no operator. -/
theorem operatorsOf_value (operand : Expr) (h : item.kind.value? = some operand) :
    operatorsOf opened (item :: rest) = operatorsOf opened rest := by
  obtain ⟨-, hopen, hclose⟩ := Lexeme.Kind.beginsLeaf_of_value? h
  unfold operatorsOf
  rw [balanceFault?_other hopen hclose, List.map_cons, flatElements_value _ _ _ h,
    occurrences_cons_leaf]

/-- An operator is the first of the operators. -/
theorem operatorsOf_operator {op : Operator} (h : item.kind = op.lexemeKind) :
    operatorsOf opened (item :: rest) =
      (operatorsOf opened rest).map (.ofDepth item.span.start op opened.length :: ·) := by
  have hother := Lexeme.Kind.lexemeKind_ne_paren op
  rw [← h] at hother
  unfold operatorsOf
  rw [balanceFault?_other hother.1 hother.2, List.map_cons, h, flatElements_operator,
    occurrences_cons_operator]
  cases balanceFault? opened rest <;> rfl

/-- An opening parenthesis is still to be closed. -/
theorem operatorsOf_openParen (h : item.kind = .openParen) :
    operatorsOf opened (item :: rest) = operatorsOf (item :: opened) rest := by
  unfold operatorsOf
  rw [balanceFault?_openParen h, List.map_cons, h, flatElements_openParen]
  rfl

/-- A closing parenthesis closes the last one that is open. -/
theorem operatorsOf_closeParen (h : item.kind = .closeParen) (last : Placed) :
    operatorsOf (last :: opened) (item :: rest) = operatorsOf opened rest := by
  unfold operatorsOf
  rw [balanceFault?_closeParen h, List.map_cons, h, flatElements_closeParen]
  rfl

end Operators

/-! ### From indices to byte positions -/

/-- The index of a placed lexeme says which one it is. -/
theorem getElem?_of_mem_placeFrom {index : Nat} {lexemes : List Lexeme} {item : Placed}
    (h : item ∈ placeFrom index lexemes) :
    index ≤ item.index ∧ lexemes[item.index - index]? = some item.lexeme := by
  induction lexemes generalizing index with
  | nil => cases h
  | cons lexeme rest ih =>
    rcases List.mem_cons.1 h with rfl | h
    · refine ⟨Nat.le_refl _, ?_⟩
      rw [Nat.sub_self]
      rfl
    · obtain ⟨hle, hget⟩ := ih h
      refine ⟨by omega, ?_⟩
      rw [show item.index - index = item.index - (index + 1) + 1 by omega]
      exact hget

/-- Placed lexemes are the lexemes, with their indices. -/
theorem map_lexeme_placeFrom (index : Nat) (lexemes : List Lexeme) :
    (placeFrom index lexemes).map Placed.lexeme = lexemes := by
  induction lexemes generalizing index with
  | nil => rfl
  | cons lexeme rest ih => exact congrArg (lexeme :: ·) (ih (index + 1))

/-- The indices of placed lexemes increase. -/
theorem pairwise_placeFrom (index : Nat) (lexemes : List Lexeme) :
    (placeFrom index lexemes).Pairwise fun first second ↦ first.index < second.index := by
  induction lexemes generalizing index with
  | nil => exact .nil
  | cons lexeme rest ih =>
    exact List.pairwise_cons.2
      ⟨fun item hitem ↦ (getElem?_of_mem_placeFrom hitem).1, ih (index + 1)⟩

/-- The byte position of the lexeme at an index. Beyond the lexemes any increasing choice will do.
-/
def startOf (lexemes : List Lexeme) (length index : Nat) : Nat :=
  match lexemes[index]? with
  | some lexeme => lexeme.span.start
  | none => length + index

/-- Lexemes that begin one behind the other have increasing byte positions. -/
theorem strictMono_startOf {lexemes : List Lexeme} {length : Nat}
    (hstarts : lexemes.Pairwise fun first second ↦ first.span.start < second.span.start)
    (hlength : ∀ lexeme ∈ lexemes, lexeme.span.start < length) :
    StrictMono (startOf lexemes length) := by
  intro first second hlt
  unfold startOf
  cases hsecond : lexemes[second]? with
  | none =>
    cases hfirst : lexemes[first]? with
    | none => exact Nat.add_lt_add_left hlt length
    | some lexeme =>
      have := hlength lexeme (List.mem_of_getElem? hfirst)
      show lexeme.span.start < length + second
      omega
  | some next =>
    obtain ⟨hbound, rfl⟩ := List.getElem?_eq_some_iff.1 hsecond
    rw [List.getElem?_eq_getElem (Nat.lt_trans hlt hbound)]
    exact List.pairwise_iff_getElem.1 hstarts first second _ hbound hlt

/-- The spots of placed lexemes are those of the lexemes. -/
theorem map_placeFrom_spots (index : Nat) (lexemes : List Lexeme) :
    (placeFrom index lexemes).map (fun item ↦ (item.span.start, item.kind)) = spots lexemes := by
  have hlexemes := congrArg spots (map_lexeme_placeFrom index lexemes)
  rw [← hlexemes, spots, List.map_map]
  rfl

/-- The byte position at the index of a lexeme is that of the lexeme. -/
theorem startOf_index {lexemes : List Lexeme} {item : Placed} (h : item ∈ placeFrom 0 lexemes)
    (length : Nat) : startOf lexemes length item.index = item.span.start := by
  have hget : lexemes[item.index]? = some item.lexeme := (getElem?_of_mem_placeFrom h).2
  rw [startOf, hget]
  rfl

/-- The elements at byte positions are those at indices, moved. -/
theorem flatElements_spots (lexemes : List Lexeme) (length : Nat) :
    flatElements 0 (spots lexemes) =
      (flatElements 0 ((placeFrom 0 lexemes).map fun item ↦ (item.index, item.kind))).map
        (Element.relocate (startOf lexemes length)) := by
  rw [← map_placeFrom_spots 0, ← flatElements_relocate, List.map_map]
  congr 1
  refine List.map_congr_left fun item hitem ↦ ?_
  rw [← startOf_index hitem length]
  rfl

/-- An element stands at the index of a lexeme. -/
theorem exists_of_mem_flatElements {depth : Nat} {items : List Placed} {element : Element}
    (h : element ∈ flatElements depth (items.map fun item ↦ (item.index, item.kind))) :
    ∃ item ∈ items, item.index = element.index := by
  have hmem : element.index ∈ (items.map fun item ↦ (item.index, item.kind)).map Prod.fst :=
    (sublist_flatElements depth _).subset (List.mem_map_of_mem h)
  rw [List.map_map] at hmem
  exact List.mem_map.1 hmem

/-- The leaves of moved elements, put in one after the other, fill the moved pool. -/
theorem ofList_leaves_relocate {place : Nat → Nat} (hplace : StrictMono place)
    {elements : List Element} (hincreasing : Increasing elements) :
    OperandPool.ofList (leaves (elements.map (Element.relocate place))) =
      (Gathered.ofElements elements).pool.relocate hplace := by
  rw [leaves_relocate, OperandPool.ofList_relocateEntries hplace,
    Gathered.ofList_leaves hincreasing]

/-- Reading flat lexemes agrees with assembling their leaves and operators at their byte positions.
-/
theorem agree_read_flat {lexemes : List Lexeme} {length : Nat}
    (hflat : ∀ lexeme ∈ lexemes, lexeme.kind.isFlat = true)
    (hstarts : lexemes.Pairwise fun first second ↦ first.span.start < second.span.start)
    (hlength : ∀ lexeme ∈ lexemes, lexeme.span.start < length) {other : Regions}
    (hother : ∀ lexeme ∈ lexemes, other.ofIndex lexeme.span.start = lexeme.span) :
    Agree (Source.read ⟨lexemes, length⟩).outcome
      ((operatorsOf [] (placeFrom 0 lexemes)).bind fun operators ↦
        (assemble other (.ofList (leaves (flatElements 0 (spots lexemes))))
          (constructionOrder operators)).outcome) := by
  let source : Source := ⟨lexemes, length⟩
  let items := placeFrom 0 lexemes
  let elements := flatElements 0 (items.map fun item ↦ (item.index, item.kind))
  have hplace := strictMono_startOf hstarts hlength
  have hget : ∀ item ∈ items, lexemes[item.index]? = some item.lexeme :=
    fun item hitem ↦ (getElem?_of_mem_placeFrom hitem).2
  have hincreasing : Increasing elements :=
    increasing_flatElements (List.pairwise_map.2 (pairwise_placeFrom 0 lexemes))
  -- the two readers name the same region, one by an index and the other by a byte position
  have hregion : ∀ element ∈ elements,
      other.ofIndex (startOf lexemes length element.index) = source.spanAt element.index := by
    intro element helement
    obtain ⟨item, hitem, heq⟩ := exists_of_mem_flatElements helement
    rw [← heq, startOf_index hitem, Source.spanAt, hget item hitem]
    exact hother item.lexeme (List.mem_of_getElem? (hget item hitem))
  rw [Source.outcome_read, operatorsOf]
  cases hbalance : balanceFault? [] (placeFrom 0 lexemes) with
  | some fault => exact .refl _
  | none =>
    have hgather := Recorded.outcome_eq_ok_iff.2 (source.result?_gather_flat
      (fun item hitem ↦ hflat item.lexeme (List.mem_of_getElem? (hget item hitem))) 0)
    show Agree ((source.gather 0 items).outcome.bind _)
      (assemble other (.ofList (leaves (flatElements 0 (spots lexemes)))) (constructionOrder
        (occurrences (flatElements 0 (items.map fun item ↦ (item.span.start, item.kind)))))).outcome
    rw [hgather, map_placeFrom_spots, flatElements_spots lexemes length,
      ofList_leaves_relocate hplace hincreasing, occurrences_relocate,
      constructionOrder_relocate hplace]
    show Agree (assemble _ (Gathered.ofElements elements).pool
      (constructionOrder (Gathered.ofElements elements).operators)).outcome _
    rw [Gathered.operators_ofElements]
    refine agree_assemble_relocate hplace ⟨fun entry hentry ↦ ?_, fun occurrence hoccurrence ↦ ?_⟩
    · rw [Gathered.entries_ofElements hincreasing] at hentry
      obtain ⟨element, helement, heq⟩ := exists_of_mem_leaves hentry
      rw [← heq]
      exact hregion element helement
    · have hmem := (constructionOrder_perm _).mem_iff.1 hoccurrence
      exact hregion _ (mem_of_mem_occurrences hmem)

end Nabla.Formula
