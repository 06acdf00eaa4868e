import Mathlib.Data.List.DropRight
import Nabla.Proofs.Formula.CharacterSequence
import Nabla.Proofs.Formula.LexemeRegions

/-!
# Regions of the faults of characters

Every fault of the reader of characters points at a region of the text that can be shown, and so
does every fault of either reader (`visibleIn_parse`). Leaves and operators stand where a character
begins, and the region of such a place ends with the character or with the run that it begins.
-/

namespace Nabla.Formula

open Text (Span BeginsChar)

variable {mode : Mode} {front text : List Char}

/-! ### Regions of positions -/

/-- The run that begins with a leaf character is a part of the text. -/
theorem exists_leafRun {c : Char} (h : isLeafChar c = true) (rest : List Char) :
    ∃ shown after, shown ≠ [] ∧ shown ++ after = c :: rest ∧
      leafRunLength (c :: rest) = Text.byteLength shown := by
  let run := (c :: rest).takeWhile fun c ↦ isLeafChar c || c == ' '
  have hmem : c ∈ run := by
    show c ∈ (c :: rest).takeWhile _
    rw [List.takeWhile_cons_of_pos (by rw [h]; rfl)]
    exact List.mem_cons_self
  obtain ⟨after, hafter⟩ := (run.rdropWhile_prefix (· == ' ')).trans (List.takeWhile_prefix _)
  refine ⟨run.rdropWhile (· == ' '), after, fun hnil ↦ ?_, hafter, rfl⟩
  have hspace := eq_of_beq (List.rdropWhile_eq_nil_iff.1 hnil c hmem)
  rw [hspace] at h
  cases h

/-- A place where a character begins has a region that can be shown. -/
theorem showsIn_spanAtPosition {position : Nat} (h : BeginsChar text position) :
    (spanAtPosition text position).ShowsIn text := by
  obtain ⟨front, c, rest, rfl, rfl⟩ := h
  rw [spanAtPosition, Text.dropBytes_append]
  simp only
  split
  · rename_i hleaf
    obtain ⟨shown, after, hne, heq, hlength⟩ := exists_leafRun hleaf rest
    rw [hlength, ← heq]
    exact .ofChars front after hne
  · exact .ofChar front rest c

/-! ### Operators -/

/-- A fault of the scan for operators points at a character, or at an opening parenthesis. -/
theorem showsIn_of_scanOperators {opened : List Span} {fault : Fault}
    (hopened : ∀ span ∈ opened, span.ShowsIn (front ++ text))
    (h : scanOperators opened (Text.byteLength front) text = .error fault) :
    fault.ShowsIn (front ++ text) := by
  induction text generalizing front opened with
  | nil =>
    cases opened with
    | nil => cases h
    | cons last outer =>
      cases h
      exact ⟨last, rfl, hopened last List.mem_cons_self⟩
  | cons c rest ih =>
    let span := Span.ofLength (Text.byteLength front) c.utf8Size
    have hspan : span.ShowsIn (front ++ c :: rest) := .ofChar front rest c
    have hnext {inner : List Span} (hinner : ∀ span ∈ inner, span.ShowsIn (front ++ c :: rest))
        (h : scanOperators inner span.stop rest = .error fault) :
        fault.ShowsIn (front ++ c :: rest) := by
      have hrest := @ih (front ++ [c]) inner
      rw [Text.byteLength_append, List.append_assoc] at hrest
      exact hrest hinner h
    unfold scanOperators at h
    simp only at h
    split at h
    · exact hnext (List.forall_mem_cons.2 ⟨hspan, hopened⟩) h
    · split at h
      · split at h
        · cases h
          exact ⟨span, rfl, hspan⟩
        · exact hnext (List.forall_mem_cons.1 hopened).2 h
      · split at h
        · exact hnext hopened h
        · split at h
          · exact hnext hopened (eq_error_of_map_eq_error h)
          · split at h <;> cases h <;> exact ⟨span, rfl, hspan⟩

/-- Operators stand where their characters do. -/
theorem exists_of_scanOperators {opened : List Span} {operators : List Occurrence}
    (h : scanOperators opened (Text.byteLength front) text = .ok operators) :
    ∀ occurrence ∈ operators, ∃ before after,
      before ++ occurrence.operator.character :: after = front ++ text ∧
        Text.byteLength before = occurrence.index := by
  induction text generalizing front opened operators with
  | nil =>
    cases opened with
    | nil =>
      cases h
      exact fun _ hnone ↦ absurd hnone List.not_mem_nil
    | cons last outer => cases h
  | cons c rest ih =>
    have hnext {inner : List Span} {others : List Occurrence}
        (h : scanOperators inner (Text.byteLength front + c.utf8Size) rest = .ok others) :
        ∀ occurrence ∈ others, ∃ before after,
          before ++ occurrence.operator.character :: after = front ++ c :: rest ∧
            Text.byteLength before = occurrence.index := by
      have hrest := @ih (front ++ [c]) inner others
      rw [Text.byteLength_append, List.append_assoc] at hrest
      exact hrest h
    rcases cases_of_scanOperators h with ⟨-, h⟩ | ⟨rfl, h⟩ | ⟨rfl, last, outer, -, h⟩ |
      ⟨op, others, rfl, hothers, rfl⟩
    · exact hnext h
    · exact hnext h
    · exact hnext h
    · rw [← utf8Size_character op] at hothers
      exact List.forall_mem_cons.2 ⟨⟨front, rest, rfl, rfl⟩, hnext hothers⟩

/-- Operators stand where a character begins. -/
theorem beginsChar_of_scanOperators {opened : List Span} {operators : List Occurrence}
    (h : scanOperators opened (Text.byteLength front) text = .ok operators) :
    ∀ occurrence ∈ operators, BeginsChar (front ++ text) occurrence.index := by
  intro occurrence hoccurrence
  obtain ⟨before, after, heq, hindex⟩ := exists_of_scanOperators h occurrence hoccurrence
  exact ⟨before, occurrence.operator.character, after, heq, hindex⟩

/-! ### Leaves -/

/-- The region of a run can be shown, as that of the run that is being read, which begins before the
rest of the text. -/
theorem showsIn_leafRuns {current : Option LeafRun}
    (hcurrent : ∀ run ∈ current, run.span.ShowsIn (front ++ text) ∧
      run.span.start ≤ Text.byteLength front) :
    ∀ run ∈ leafRuns current (Text.byteLength front) text, run.span.ShowsIn (front ++ text) := by
  induction text generalizing front current with
  | nil => exact fun run hrun ↦ (hcurrent run (Option.mem_toList.1 hrun)).1
  | cons c rest ih =>
    let span := Span.ofLength (Text.byteLength front) c.utf8Size
    have hspan : span.ShowsIn (front ++ c :: rest) := .ofChar front rest c
    have hnext {next : Option LeafRun}
        (hshows : ∀ run ∈ next, run.span.ShowsIn (front ++ c :: rest) ∧
          run.span.start ≤ Text.byteLength front) :
        ∀ run ∈ leafRuns next span.stop rest, run.span.ShowsIn (front ++ c :: rest) := by
      have hrest := @ih (front ++ [c]) next
      rw [Text.byteLength_append, List.append_assoc] at hrest
      refine hrest fun run hrun ↦ ⟨(hshows run hrun).1, ?_⟩
      exact Nat.le_trans (hshows run hrun).2 (Nat.le_add_right _ _)
    rw [leafRuns]
    split
    · refine hnext fun run hrun ↦ ?_
      cases hrun
      cases current with
      | none => exact ⟨hspan, Nat.le_refl _⟩
      | some run =>
        obtain ⟨hshows, hstart⟩ := hcurrent run rfl
        exact ⟨hshows.through hspan hstart, hstart⟩
    · split
      · exact hnext hcurrent
      · intro run hrun
        rcases List.mem_append.1 hrun with hrun | hrun
        · exact (hcurrent run (Option.mem_toList.1 hrun)).1
        · exact hnext (fun _ hnone ↦ absurd hnone (Option.not_mem_none _)) run hrun

/-- A fault of leaves points at a run. -/
theorem spans_of_leavesOfRuns {runs : List LeafRun} {fault : Fault}
    (h : leavesOfRuns mode runs = .error fault) : ∃ run ∈ runs, fault.spans = [run.span] := by
  induction runs with
  | nil => cases h
  | cons run rest ih =>
    unfold leavesOfRuns LeafRun.leaf at h
    cases hleaf : leafOfText mode run.text with
    | error cause =>
      rw [hleaf] at h
      cases h
      exact ⟨run, List.mem_cons_self, rfl⟩
    | ok leaf =>
      rw [hleaf] at h
      obtain ⟨other, hother, hspans⟩ := ih (eq_error_of_map_eq_error h)
      exact ⟨other, List.mem_cons_of_mem _ hother, hspans⟩

/-- Leaves stand where their runs begin. -/
theorem index_of_leavesOfRuns {runs : List LeafRun} {found : List (Nat × Expr)}
    (h : leavesOfRuns mode runs = .ok found) :
    ∀ entry ∈ found, ∃ run ∈ runs, run.span.start = entry.1 := by
  induction runs generalizing found with
  | nil =>
    cases h
    exact fun _ hnone ↦ absurd hnone List.not_mem_nil
  | cons run rest ih =>
    obtain ⟨before, after, hrun, hrest, rfl⟩ :=
      exists_of_leavesOfRuns_append (show leavesOfRuns mode ([run] ++ rest) = .ok found from h)
    obtain ⟨operand, -, rfl⟩ := exists_of_leavesOfRuns_singleton hrun
    refine List.forall_mem_cons.2 ⟨⟨run, List.mem_cons_self, rfl⟩, fun entry hentry ↦ ?_⟩
    obtain ⟨other, hother, hstart⟩ := ih hrest entry hentry
    exact ⟨other, List.mem_cons_of_mem _ hother, hstart⟩

/-! ### Readings -/

/-- The region of a run can be shown. -/
theorem showsIn_run {run : LeafRun} (h : run ∈ leafRuns none 0 text) : run.span.ShowsIn text :=
  @showsIn_leafRuns [] text none (fun _ hnone ↦ absurd hnone (Option.not_mem_none _)) run h

/-- A fault of the scans can be shown. -/
theorem showsIn_gatherCharacters {fault : Fault} (h : gatherCharacters mode text = .error fault) :
    fault.ShowsIn text := by
  rcases exists_of_bind_eq_error h with h | ⟨operators, -, h⟩
  · exact @showsIn_of_scanOperators [] text [] fault
      (fun _ hnone ↦ absurd hnone List.not_mem_nil) h
  · rcases exists_of_bind_eq_error h with h | ⟨found, -, h⟩
    · obtain ⟨run, hrun, hspans⟩ := spans_of_leavesOfRuns h
      exact ⟨run.span, hspans, showsIn_run hrun⟩
    · cases h

/-- Leaves and operators of a text stand where a character begins. -/
theorem beginsChar_of_hasIndex {gathered : Gathered} (h : gatherCharacters mode text = .ok gathered)
    {index : Nat} (hindex : gathered.HasIndex index) : BeginsChar text index := by
  obtain ⟨operators, found, hoperators, hfound, rfl⟩ := exists_of_gatherCharacters h
  cases hindex with
  | leaf hentry =>
    obtain ⟨run, hrun, rfl⟩ :=
      index_of_leavesOfRuns hfound _ (OperandPool.mem_of_mem_ofList hentry)
    exact (showsIn_run hrun).beginsChar
  | operator hoccurrence =>
    exact @beginsChar_of_scanOperators [] text [] operators hoperators _ hoccurrence

/-- Every fault of the reader of characters can be shown. -/
theorem visibleIn_readCharacters {fault : Fault}
    (h : (readCharacters mode text).outcome = .error fault) : fault.VisibleIn text := by
  rw [readCharacters, Recorded.outcome_andThen] at h
  rcases exists_of_bind_eq_error h with h | ⟨gathered, hgathered, h⟩
  · exact (showsIn_gatherCharacters h).visibleIn
  · rcases Gathered.spans_of_build h with hspans | ⟨index, hindex, hspans⟩
    · exact ⟨_, hspans, Span.visibleIn_whole text⟩
    · exact ⟨_, hspans,
        (showsIn_spanAtPosition (beginsChar_of_hasIndex hgathered hindex)).visibleIn⟩

/-- Every fault of a reader can be shown. -/
theorem visibleIn_parse {reader : Reader} {fault : Fault}
    (h : reader.parse mode text = .error fault) : fault.VisibleIn text := by
  cases reader with
  | token => exact visibleIn_readLexemes h
  | direct => exact visibleIn_readCharacters h

end Nabla.Formula
