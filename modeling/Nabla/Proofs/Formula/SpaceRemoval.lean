import Mathlib.Data.List.Forall2
import Nabla.Proofs.Formula.CharacterSequence
import Nabla.Proofs.Formula.Verdict

/-!
# Texts without their spaces

The reader of characters drops spaces everywhere, even inside a leaf. So a text and what is left of
it without the spaces have the same verdict (`parse_direct_withoutSpaces`), whatever the text is:
the tree is the same, or the first fault has the same cause.

Without the spaces every leaf and every operator stands somewhere else. `positionWithSpaces` gives
the position in the text for one in the text without the spaces. It is strictly increasing, so both
scans find the same things in the same order, and an assembly does not see the difference.
-/

namespace Nabla.Formula

variable {mode : Mode} {place : Nat → Nat}

/-- A text without its spaces. -/
def withoutSpaces (text : List Char) : List Char := text.filter (· != ' ')

/-- A character that is no space is kept. -/
theorem withoutSpaces_cons {c : Char} (h : c ≠ ' ') (rest : List Char) :
    withoutSpaces (c :: rest) = c :: withoutSpaces rest :=
  List.filter_cons_of_pos (bne_iff_ne.2 h)

/-! ### Positions -/

/-- The position in a text of what stands at the given position of the text without its spaces. -/
def positionWithSpaces : List Char → Nat → Nat
  | [], position => position
  | c :: rest, position =>
      if c = ' ' then positionWithSpaces rest position + 1
      else if position < c.utf8Size then position
      else c.utf8Size + positionWithSpaces rest (position - c.utf8Size)

/-- A space moves what is behind it by one byte. -/
theorem positionWithSpaces_space (rest : List Char) (position : Nat) :
    positionWithSpaces (' ' :: rest) position = positionWithSpaces rest position + 1 := rfl

/-- Another character stands where it stands. -/
theorem positionWithSpaces_zero {c : Char} (h : c ≠ ' ') (rest : List Char) :
    positionWithSpaces (c :: rest) 0 = 0 := by
  rw [positionWithSpaces, if_neg h, if_pos c.utf8Size_pos]

/-- The positions behind another character are those in the rest of the text. -/
theorem positionWithSpaces_add {c : Char} (h : c ≠ ' ') (rest : List Char) (distance : Nat) :
    positionWithSpaces (c :: rest) (c.utf8Size + distance) =
      c.utf8Size + positionWithSpaces rest distance := by
  rw [positionWithSpaces, if_neg h, if_neg (Nat.not_lt.2 (Nat.le_add_right _ _)),
    Nat.add_sub_cancel_left]

/-- Spaces keep the order of positions. -/
theorem strictMono_positionWithSpaces (text : List Char) :
    StrictMono (positionWithSpaces text) := by
  induction text with
  | nil => exact strictMono_id
  | cons c rest ih =>
    intro first second hlt
    by_cases hspace : c = ' '
    · subst hspace
      exact Nat.succ_lt_succ (ih hlt)
    · by_cases hfirst : first < c.utf8Size
      · have hstays : positionWithSpaces (c :: rest) first = first := by
          rw [positionWithSpaces, if_neg hspace, if_pos hfirst]
        rw [hstays, positionWithSpaces, if_neg hspace]
        split
        · exact hlt
        · omega
      · -- both positions are behind the character
        obtain ⟨near, rfl⟩ := Nat.exists_eq_add_of_le (Nat.not_lt.1 hfirst)
        obtain ⟨far, rfl⟩ := Nat.exists_eq_add_of_le (Nat.le_trans (Nat.not_lt.1 hfirst) hlt.le)
        rw [positionWithSpaces_add hspace, positionWithSpaces_add hspace]
        exact Nat.add_lt_add_left (ih (Nat.lt_of_add_lt_add_left hlt)) _

/-- The rest of a text stands at a position, and without its spaces at another one. -/
def Places (place : Nat → Nat) (text : List Char) (position other : Nat) : Prop :=
  ∀ distance, place (other + distance) = position + positionWithSpaces text distance

namespace Places

variable {rest : List Char} {position other : Nat}

/-- Behind a space the positions differ by one more. -/
theorem space (h : Places place (' ' :: rest) position other) :
    Places place rest (position + 1) other := by
  intro distance
  rw [h distance, positionWithSpaces_space]
  omega

variable {c : Char} (hspace : c ≠ ' ') (h : Places place (c :: rest) position other)

include hspace h

/-- The first character itself. -/
theorem first : place other = position := by
  have hfirst := h 0
  rwa [positionWithSpaces_zero hspace] at hfirst

/-- Behind another character the positions differ as before. -/
theorem cons : Places place rest (position + c.utf8Size) (other + c.utf8Size) := by
  intro distance
  rw [Nat.add_assoc, h (c.utf8Size + distance), positionWithSpaces_add hspace, Nat.add_assoc]

end Places

/-! ### Operators -/

/-- The operators of a text without its spaces, or the cause of its fault, are those of the text.
Of the parentheses that are open only the number matters. -/
theorem scanOperators_withoutSpaces {text : List Char} {opened others : List Text.Span}
    {position other : Nat} (hopened : others.length = opened.length)
    (hplaces : Places place text position other) :
    withoutRegion (scanOperators opened position text) =
      (withoutRegion (scanOperators others other (withoutSpaces text))).map
        (List.map (Occurrence.relocate place)) := by
  -- the depths of both scans are equal all along; that is all the operators take from them
  induction text generalizing opened others position other with
  | nil =>
    cases opened with
    | nil =>
      rw [List.length_eq_zero_iff.1 hopened]
      rfl
    | cons last outer =>
      obtain ⟨first, others, rfl⟩ := List.exists_cons_of_length_eq_add_one hopened
      rfl
  | cons c rest ih =>
    by_cases hspace : c = ' '
    · subst hspace
      exact ih hopened hplaces.space
    · have hrest := hplaces.cons hspace
      rw [withoutSpaces_cons hspace]
      rcases cases_of_character c with hpassed | rfl | rfl | ⟨op, rfl⟩ | ⟨cause, hfault⟩
      · rw [scanOperators_passed hpassed, scanOperators_passed hpassed]
        exact ih hopened hrest
      · rw [scanOperators_openParen, scanOperators_openParen]
        exact ih (congrArg Nat.succ hopened) hrest
      · cases opened with
        | nil =>
          rw [List.length_eq_zero_iff.1 hopened]
          rfl
        | cons last outer =>
          obtain ⟨first, others, rfl⟩ := List.exists_cons_of_length_eq_add_one hopened
          rw [scanOperators_closeParen, scanOperators_closeParen]
          exact ih (Nat.succ.inj hopened) hrest
      · rw [utf8Size_character] at hrest
        have hfirst : (Occurrence.ofDepth other op others.length).relocate place =
            .ofDepth position op opened.length := by
          rw [← hplaces.first hspace, hopened]
          rfl
        rw [scanOperators_operator, scanOperators_operator, withoutRegion_map, withoutRegion_map,
          ih hopened hrest, ← hfirst]
        cases withoutRegion (scanOperators others (other + 1) (withoutSpaces rest)) <;> rfl
      · rw [hfault, hfault]
        rfl

/-! ### Leaves -/

/-- Two runs of the same characters, where the first one begins at the place of the other one. -/
structure SameRun (place : Nat → Nat) (run other : LeafRun) : Prop where
  text : run.text = other.text
  start : run.span.start = place other.span.start

/-- Runs go on across spaces. -/
theorem leafRuns_withoutSpaces {text : List Char} {current following : Option LeafRun}
    {position other : Nat} (hcurrent : Option.Rel (SameRun place) current following)
    (hplaces : Places place text position other) :
    List.Forall₂ (SameRun place) (leafRuns current position text)
      (leafRuns following other (withoutSpaces text)) := by
  have hlist {current following : Option LeafRun}
      (hcurrent : Option.Rel (SameRun place) current following) :
      List.Forall₂ (SameRun place) current.toList following.toList := by
    cases hcurrent with
    | none => exact .nil
    | some hsame => exact .cons hsame .nil
  -- the pending runs of both scans have the same characters all along
  induction text generalizing current following position other with
  | nil => exact hlist hcurrent
  | cons c rest ih =>
    by_cases hspace : c = ' '
    · subst hspace
      exact ih hcurrent hplaces.space
    · have hrest := hplaces.cons hspace
      rw [withoutSpaces_cons hspace]
      by_cases hleaf : isLeafChar c = true
      · rw [leafRuns, leafRuns]
        simp only [hleaf, if_true]
        refine ih (.some ?_) hrest
        cases hcurrent with
        | none => exact ⟨rfl, (hplaces.first hspace).symm⟩
        | some hsame => exact ⟨congrArg (· ++ [c]) hsame.text, hsame.start⟩
      · have hnotPassed : ¬IsPassed c := fun hpassed ↦ hpassed.elim hleaf hspace
        rw [leafRuns_notPassed hnotPassed, leafRuns_notPassed hnotPassed]
        exact List.rel_append (hlist hcurrent) (ih .none hrest)

/-- The leaves of the same runs. -/
theorem leavesOfRuns_sameRuns {runs others : List LeafRun}
    (h : List.Forall₂ (SameRun place) runs others) :
    withoutRegion (leavesOfRuns mode runs) =
      (withoutRegion (leavesOfRuns mode others)).map (relocateEntries place) := by
  induction h with
  | nil => rfl
  | @cons run other runs others hsame hrest ih =>
    rw [leavesOfRuns, leavesOfRuns, LeafRun.leaf, LeafRun.leaf, hsame.text, hsame.start]
    cases leafOfText mode other.text with
    | error cause => rfl
    | ok leaf =>
      show withoutRegion (Except.map _ _) = (withoutRegion (Except.map _ _)).map _
      rw [withoutRegion_map, withoutRegion_map, ih]
      cases withoutRegion (leavesOfRuns mode others) <;> rfl

/-! ### Readings -/

/-- Outcomes that agree are the same without regions. -/
theorem Agree.withoutRegion_eq {outcome other : Except Fault Expr} (h : Agree outcome other) :
    withoutRegion outcome = withoutRegion other := by
  cases outcome with
  | ok e =>
    cases other with
    | ok found => exact congrArg Except.ok h
    | error fault => exact absurd h id
  | error fault =>
    cases other with
    | ok found => exact absurd h id
    | error found => exact congrArg Except.error h.1

/-- An assembly has the same verdict at other indices of the same order, whatever the regions are.
-/
theorem verdict_assemble_relocate (hplace : StrictMono place) (regions other : Regions)
    (pool : OperandPool) (order : List Occurrence) :
    (assemble other (pool.relocate hplace) (order.map (Occurrence.relocate place))).verdict =
      (assemble regions pool order).verdict := by
  let anywhere : Regions := ⟨fun _ ↦ ⟨0, 0⟩, ⟨0, 0⟩⟩
  have hregions : SameRegions place anywhere anywhere pool order := ⟨fun _ _ ↦ rfl, fun _ _ ↦ rfl⟩
  rw [verdict_assemble other anywhere, verdict_assemble regions anywhere]
  exact (agree_assemble_relocate hplace hregions).withoutRegion_eq.symm

/-- What is read from characters, without regions: the outcome of both scans, and of the assembly.
-/
theorem withoutRegion_parse_direct (text : List Char) (regions : Regions) :
    withoutRegion (Reader.direct.parse mode text) =
      (withoutRegion (scanOperators [] 0 text)).bind fun operators ↦
        (withoutRegion (leavesOfRuns mode (leafRuns none 0 text))).bind fun found ↦
          (assemble regions (.ofList found) (constructionOrder operators)).verdict := by
  show withoutRegion (readCharacters mode text).outcome = _
  rw [readCharacters, Recorded.outcome_andThen, Recorded.outcome_ofExcept, gatherCharacters]
  cases scanOperators [] 0 text with
  | error fault => rfl
  | ok operators =>
    cases leavesOfRuns mode (leafRuns none 0 text) with
    | error fault => rfl
    | ok found =>
      show withoutRegion (Gathered.build ⟨.ofList found, operators⟩ _ _ _).outcome = _
      rw [Gathered.outcome_build]
      exact verdict_assemble _ regions (.ofList found) (constructionOrder operators)

/-- The reader of characters reads a text as it reads the text without its spaces: as the same
tree, or with a fault of the same cause. -/
theorem parse_direct_withoutSpaces (mode : Mode) (text : List Char) :
    withoutRegion (Reader.direct.parse mode (withoutSpaces text)) =
      withoutRegion (Reader.direct.parse mode text) := by
  let place := positionWithSpaces text
  have hplace : StrictMono place := strictMono_positionWithSpaces text
  have hplaces : Places place text 0 0 := fun distance ↦ by rw [Nat.zero_add, Nat.zero_add]
  have hoperators := @scanOperators_withoutSpaces place text [] [] 0 0 rfl hplaces
  have hleaves : withoutRegion (leavesOfRuns mode (leafRuns none 0 text)) = _ :=
    leavesOfRuns_sameRuns (leafRuns_withoutSpaces .none hplaces)
  let anywhere : Regions := ⟨fun _ ↦ ⟨0, 0⟩, ⟨0, 0⟩⟩
  rw [withoutRegion_parse_direct _ anywhere, withoutRegion_parse_direct _ anywhere, hoperators,
    hleaves]
  cases withoutRegion (scanOperators [] 0 (withoutSpaces text)) with
  | error cause => rfl
  | ok operators =>
    cases withoutRegion (leavesOfRuns mode (leafRuns none 0 (withoutSpaces text))) with
    | error cause => rfl
    | ok found =>
      show (assemble anywhere (.ofList found) (constructionOrder operators)).verdict =
        (assemble anywhere (.ofList (relocateEntries place found))
          (constructionOrder (operators.map (Occurrence.relocate place)))).verdict
      rw [OperandPool.ofList_relocateEntries hplace, constructionOrder_relocate hplace,
        verdict_assemble_relocate hplace anywhere]

end Nabla.Formula
