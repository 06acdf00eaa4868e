import Nabla.Proofs.Formula.CharacterRegions

/-!
# Regions of runs

The region of a leaf is found in two ways. The scan for leaves carries the run it reads along, over
the spaces in it; a fault of a later stage only knows where the leaf begins, and looks in the text
for the end of the run. The two agree (`spanAtPosition_agrees`): both regions reach from the first
leaf character of the run to the last one.

What the scan has read is described by the text in front of it (`Reading`): a run is read from a
part of the text that begins and ends with a leaf character (`LeafRun.ReadFrom`), and outside of
runs there are spaces behind what ends a run.
-/

namespace Nabla.Formula

open Text (Span)

variable {front before shown after : List Char} {run : LeafRun} {c : Char}

/-! ### Runs -/

/-- No run goes on at the end of a text: there are only spaces behind what ends runs. -/
def NoRunBehind (front : List Char) : Prop :=
  ∃ rest count, rest ++ List.replicate count ' ' = front ∧ ∀ c ∈ rest.getLast?, ¬IsPassed c

/-- No run goes on at the start of a text: there are only spaces in front of what ends runs. -/
def NoRunAhead (text : List Char) : Prop :=
  ∃ count rest, List.replicate count ' ' ++ rest = text ∧ ∀ c ∈ rest.head?, ¬IsPassed c

/-- A run is read from a part of a text, behind another part. It has the leaf characters of this
part, which begins and ends with one and has spaces besides, and no leaf character before it belongs
to the run. -/
structure LeafRun.ReadFrom (run : LeafRun) (before shown : List Char) : Prop where
  noRunBehind : NoRunBehind before
  nonempty : shown ≠ []
  head : ∀ c ∈ shown.head?, isLeafChar c = true
  last : ∀ c ∈ shown.getLast?, isLeafChar c = true
  passed : ∀ c ∈ shown, IsPassed c
  text : run.text = shown.filter (· != ' ')
  span : run.span = .ofChars (Text.byteLength before) shown

/-- A leaf character is no space. -/
theorem filter_leafChar (h : isLeafChar c = true) : [c].filter (· != ' ') = [c] := by
  refine List.filter_eq_self.2 (List.forall_mem_singleton.2 (bne_iff_ne.2 ?_))
  rintro rfl
  cases h

/-- A run begins with a leaf character. -/
theorem LeafRun.readFrom_first (hbehind : NoRunBehind before) (hc : isLeafChar c = true) :
    (LeafRun.extend none c (.ofLength (Text.byteLength before) c.utf8Size)).ReadFrom
      before [c] where
  noRunBehind := hbehind
  nonempty := List.cons_ne_nil c []
  head := by rintro _ ⟨⟩; exact hc
  last := by rintro _ ⟨⟩; exact hc
  passed := List.forall_mem_singleton.2 (.inl hc)
  text := (filter_leafChar hc).symm
  span := rfl

/-- A run goes on with a leaf character, also behind spaces. -/
theorem LeafRun.ReadFrom.extend (h : run.ReadFrom before shown) (hc : isLeafChar c = true)
    (count : Nat) :
    (LeafRun.extend (some run) c (.ofLength
        (Text.byteLength (before ++ (shown ++ List.replicate count ' '))) c.utf8Size)).ReadFrom
      before (shown ++ List.replicate count ' ' ++ [c]) where
  noRunBehind := h.noRunBehind
  nonempty := List.append_ne_nil_of_right_ne_nil _ (List.cons_ne_nil c [])
  head := by
    obtain ⟨first, others, rfl⟩ := List.exists_cons_of_ne_nil h.nonempty
    exact h.head
  last := by
    rw [List.getLast?_concat]
    rintro _ ⟨⟩
    exact hc
  passed := by
    refine List.forall_mem_append.2 ⟨List.forall_mem_append.2 ⟨h.passed, fun d hd ↦ ?_⟩,
      List.forall_mem_singleton.2 (.inl hc)⟩
    exact .inr (List.eq_of_mem_replicate hd)
  text := by
    have hspaces : (List.replicate count ' ').filter (· != ' ') = [] :=
      List.filter_eq_nil_iff.2 fun d hd ↦ by simp [List.eq_of_mem_replicate hd]
    rw [List.filter_append, List.filter_append, hspaces, ← h.text, filter_leafChar hc,
      List.append_nil]
    rfl
  span := by
    have hstart : run.span.start = Text.byteLength before := by rw [h.span]; rfl
    show Span.mk run.span.start _ = _
    rw [hstart, Text.byteLength_append before, Span.ofLength, Span.ofChars, Span.ofLength,
      Text.byteLength_append _ [c], Nat.add_assoc]
    rfl

/-! ### Reading runs -/

/-- What the scan for leaves has read, given the run it is in. -/
def Reading (front : List Char) : Option LeafRun → Prop
  | none => NoRunBehind front
  | some run => ∃ before shown count, before ++ (shown ++ List.replicate count ' ') = front ∧
      run.ReadFrom before shown

variable {current : Option LeafRun}

/-- A leaf character is added to the run that is being read. -/
theorem Reading.leaf (h : Reading front current) (hc : isLeafChar c = true) :
    Reading (front ++ [c])
      (some (.extend current c (.ofLength (Text.byteLength front) c.utf8Size))) := by
  cases current with
  | none => exact ⟨front, [c], 0, rfl, LeafRun.readFrom_first h hc⟩
  | some run =>
    obtain ⟨before, shown, count, rfl, hrun⟩ := h
    refine ⟨before, shown ++ List.replicate count ' ' ++ [c], 0, ?_, hrun.extend hc count⟩
    simp only [List.replicate_zero, List.append_nil, List.append_assoc]

/-- A space does not end the run that is being read. -/
theorem Reading.space (h : Reading front current) : Reading (front ++ [' ']) current := by
  cases current with
  | none =>
    obtain ⟨rest, count, rfl, hrest⟩ := h
    exact ⟨rest, count + 1, by rw [List.replicate_succ', List.append_assoc], hrest⟩
  | some run =>
    obtain ⟨before, shown, count, rfl, hrun⟩ := h
    refine ⟨before, shown, count + 1, ?_, hrun⟩
    simp only [List.replicate_succ', List.append_assoc]

/-- A character that is not passed ends the run. -/
theorem reading_ended (front : List Char) (hc : ¬IsPassed c) : Reading (front ++ [c]) none := by
  refine ⟨front ++ [c], 0, List.append_nil _, ?_⟩
  rw [List.getLast?_concat]
  rintro _ ⟨⟩
  exact hc

/-- Every run is read from a part of the text, and as far as it goes. -/
theorem Reading.readFrom {text : List Char} (h : Reading front current) :
    ∀ run ∈ leafRuns current (Text.byteLength front) text, ∃ before shown after,
      before ++ (shown ++ after) = front ++ text ∧ run.ReadFrom before shown ∧
        NoRunAhead after := by
  -- what is passed moves to the front, so that the pending run is always read from the end of it
  induction text generalizing front current with
  | nil =>
    intro run hrun
    obtain rfl := Option.mem_toList.1 hrun
    obtain ⟨before, shown, count, rfl, hread⟩ := h
    exact ⟨before, shown, List.replicate count ' ', (List.append_nil _).symm, hread, count, [],
      List.append_nil _, fun _ hnone ↦ absurd hnone (Option.not_mem_none _)⟩
  | cons c rest ih =>
    have hnext {next : Option LeafRun} (hnext : Reading (front ++ [c]) next) :
        ∀ run ∈ leafRuns next (Text.byteLength front + c.utf8Size) rest, ∃ before shown after,
          before ++ (shown ++ after) = front ++ c :: rest ∧ run.ReadFrom before shown ∧
            NoRunAhead after := by
      have hrest := ih hnext
      rw [Text.byteLength_append, List.append_assoc] at hrest
      exact hrest
    by_cases hc : IsPassed c
    · rw [leafRuns]
      rcases hc with hleaf | rfl
      · rw [if_pos hleaf]
        exact hnext (h.leaf hleaf)
      · exact hnext h.space
    · rw [leafRuns_notPassed hc]
      intro run hrun
      -- here the pending run ends, and another may begin
      rcases List.mem_append.1 hrun with hrun | hrun
      · obtain rfl := Option.mem_toList.1 hrun
        obtain ⟨before, shown, count, rfl, hread⟩ := h
        refine ⟨before, shown, List.replicate count ' ' ++ c :: rest, ?_, hread, count, c :: rest,
          rfl, ?_⟩
        · simp only [List.append_assoc]
        · rintro _ ⟨⟩
          exact hc
      · exact hnext (reading_ended front hc) run hrun

/-! ### Regions -/

/-- From the start of a run, its end is found by the characters. -/
theorem LeafRun.ReadFrom.spanAtPosition (h : run.ReadFrom before shown)
    (hahead : NoRunAhead after) :
    spanAtPosition (before ++ (shown ++ after)) run.span.start = run.span := by
  have hlength : leafRunLength (shown ++ after) = Text.byteLength shown := by
    refine leafRunLength_append (fun c hc ↦ ?_) h.last ?_
    · rcases h.passed c hc with hleaf | rfl
      · rw [hleaf]
        rfl
      · rfl
    · obtain ⟨count, rest, rfl, hrest⟩ := hahead
      refine ⟨count, ?_⟩
      rw [List.takeWhile_append_of_pos fun c hc ↦ by rw [List.eq_of_mem_replicate hc]; rfl]
      cases rest with
      | nil => exact List.append_nil _
      | cons c rest =>
        rw [List.takeWhile_cons_of_neg, List.append_nil]
        intro hpassed
        exact hrest c rfl ((Bool.or_eq_true_iff.1 hpassed).imp id eq_of_beq)
  obtain ⟨first, others, rfl⟩ := List.exists_cons_of_ne_nil h.nonempty
  rw [h.span]
  show Formula.spanAtPosition _ (Text.byteLength before) = _
  rw [Formula.spanAtPosition, Text.dropBytes_append]
  show (if isLeafChar first = true then Span.ofLength _ (leafRunLength (first :: others ++ after))
    else _) = _
  rw [if_pos (h.head first rfl), hlength]
  rfl

/-- The region found at the start of a run is the region of the run, which is read from the part of
the text there; and the region found at an operator is that of its character. -/
theorem spanAtPosition_agrees {text : List Char} {operators : List Occurrence}
    (h : scanOperators [] 0 text = .ok operators) :
    (∀ run ∈ leafRuns none 0 text,
      spanAtPosition text run.span.start = run.span ∧
        ∃ before shown after, before ++ (shown ++ after) = text ∧ run.ReadFrom before shown ∧
          NoRunAhead after) ∧
      ∀ occurrence ∈ operators, ∃ before after,
        before ++ occurrence.operator.character :: after = text ∧
          occurrence.index = Text.byteLength before ∧
          spanAtPosition text occurrence.index =
            .ofChars (Text.byteLength before) [occurrence.operator.character] := by
  have hstart : Reading [] none := ⟨[], 0, rfl, fun _ hnone ↦ absurd hnone (Option.not_mem_none _)⟩
  refine ⟨fun run hrun ↦ ?_, fun occurrence hoccurrence ↦ ?_⟩
  · obtain ⟨before, shown, after, rfl, hread, hahead⟩ := hstart.readFrom run hrun
    exact ⟨hread.spanAtPosition hahead, before, shown, after, rfl, hread, hahead⟩
  · obtain ⟨before, after, rfl, hindex⟩ := @exists_of_scanOperators [] text [] operators h
      occurrence hoccurrence
    refine ⟨before, after, rfl, hindex.symm, ?_⟩
    have hnoLeaf : isLeafChar occurrence.operator.character = false :=
      Bool.eq_false_iff.2 fun hleaf ↦ not_isPassed_character _ (.inl hleaf)
    rw [← hindex, spanAtPosition, Text.dropBytes_append]
    show (if isLeafChar occurrence.operator.character = true then _ else _) = _
    rw [hnoLeaf]
    rfl

/-- The leaf `1 2.5` reaches over its space, and not over the spaces behind it. -/
theorem spanAtPosition_agrees_inner_spaces :
    let text := " 1 2.5  *(x y)".toList
    scanOperators [] 0 text = .ok [.ofDepth 8 .mul 0] ∧
      leafRuns none 0 text =
        [⟨"12.5".toList, ⟨1, 6⟩⟩, ⟨"xy".toList, ⟨10, 13⟩⟩] ∧
      spanAtPosition text 1 = ⟨1, 6⟩ ∧ spanAtPosition text 10 = ⟨10, 13⟩ ∧
      spanAtPosition text 8 = ⟨8, 9⟩ := by
  intro text
  have hoperators : scanOperators [] 0 text = .ok [.ofDepth 8 .mul 0] := rfl
  have hruns : leafRuns none 0 text =
      [⟨"12.5".toList, ⟨1, 6⟩⟩, ⟨"xy".toList, ⟨10, 13⟩⟩] := by decide +kernel
  obtain ⟨hleaves, hmarks⟩ := spanAtPosition_agrees hoperators
  rw [hruns] at hleaves
  have hfirst := (hleaves _ List.mem_cons_self).1
  have hsecond := (hleaves _ (List.mem_cons_of_mem _ List.mem_cons_self)).1
  obtain ⟨before, after, -, hindex, hmark⟩ := hmarks _ (List.mem_singleton_self _)
  refine ⟨hoperators, hruns, hfirst, hsecond, ?_⟩
  rw [← hindex] at hmark
  exact hmark

end Nabla.Formula
