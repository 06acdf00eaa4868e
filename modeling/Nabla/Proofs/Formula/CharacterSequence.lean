import Nabla.Proofs.Formula.Enclosing
import Nabla.Proofs.Formula.ReaderAgreement

/-!
# Sequences of leaves and operators in characters

What the reader of characters finds is a sequence of leaves and operators as well
(`exists_scanned`). Both of its scans go through a text from left to right and keep little in mind,
so a text between parentheses is scanned as it is alone (`Scanned.enclosed`), whatever is around it.
-/

namespace Nabla.Formula

variable {mode : Mode}

/-! ### One character -/

/-- An operator is found by its own character only. -/
theorem Operator.character_of_ofCharacter? {c : Char} {op : Operator}
    (h : Operator.ofCharacter? c = some op) : c = op.character := by
  unfold Operator.ofCharacter? at h
  split at h <;> cases h <;> rfl

/-- Whether a character is no operator and no parenthesis. -/
def IsPassed (c : Char) : Prop := isLeafChar c = true ∨ c = ' '

instance (c : Char) : Decidable (IsPassed c) := inferInstanceAs (Decidable (_ ∨ _))

/-- The scan for operators passes over leaf characters and spaces. -/
theorem scanOperators_passed {c : Char} (h : IsPassed c) (opened : List Text.Span) (position : Nat)
    (rest : List Char) :
    scanOperators opened position (c :: rest) =
      scanOperators opened (position + c.utf8Size) rest := by
  rcases h with hleaf | rfl
  · exact scanOperators_leafChar opened position rest hleaf
  · rfl

/-- Every character is passed, a parenthesis, an operator, or a fault wherever it stands. -/
theorem cases_of_character (c : Char) :
    IsPassed c ∨ c = '(' ∨ c = ')' ∨ (∃ op : Operator, c = op.character) ∨
      ∃ cause, ∀ opened position rest, scanOperators opened position (c :: rest) =
        .error ⟨cause, [.ofLength position c.utf8Size]⟩ := by
  by_cases hpassed : IsPassed c
  · exact .inl hpassed
  · by_cases hopen : c = '('
    · exact .inr (.inl hopen)
    · by_cases hclose : c = ')'
      · exact .inr (.inr (.inl hclose))
      · cases hop : Operator.ofCharacter? c with
        | some op =>
          exact .inr (.inr (.inr (.inl ⟨op, Operator.character_of_ofCharacter? hop⟩)))
        | none =>
          have hskip : ¬(c = ' ' ∨ isLeafChar c = true) := fun hor ↦ hpassed hor.symm
          refine .inr (.inr (.inr (.inr
            ⟨if Token.foreignOperators.contains c then .unknownOperator c else .illegalCharacter c,
              fun opened position rest ↦ ?_⟩)))
          rw [scanOperators.eq_def]
          simp only [if_neg hopen, if_neg hclose, if_neg hskip, hop]
          split <;> rfl

/-- What the first character of a text without a fault can be, and how the scan goes on. -/
theorem cases_of_scanOperators {opened : List Text.Span} {position : Nat} {c : Char}
    {rest : List Char} {operators : List Occurrence}
    (h : scanOperators opened position (c :: rest) = .ok operators) :
    (IsPassed c ∧ scanOperators opened (position + c.utf8Size) rest = .ok operators) ∨
      (c = '(' ∧
        scanOperators (.ofLength position 1 :: opened) (position + 1) rest = .ok operators) ∨
      (c = ')' ∧ ∃ last outer, opened = last :: outer ∧
        scanOperators outer (position + 1) rest = .ok operators) ∨
      ∃ (op : Operator) (others : List Occurrence), c = op.character ∧
        scanOperators opened (position + 1) rest = .ok others ∧
        operators = .ofDepth position op opened.length :: others := by
  rcases cases_of_character c with hpassed | rfl | rfl | ⟨op, rfl⟩ | ⟨cause, hfault⟩
  · rw [scanOperators_passed hpassed] at h
    exact .inl ⟨hpassed, h⟩
  · rw [scanOperators_openParen] at h
    exact .inr (.inl ⟨rfl, h⟩)
  · cases opened with
    | nil => cases h
    | cons last outer =>
      rw [scanOperators_closeParen] at h
      exact .inr (.inr (.inl ⟨rfl, last, outer, rfl, h⟩))
  · rw [scanOperators_operator] at h
    obtain ⟨others, hothers, rfl⟩ := exists_of_map_eq_ok h
    exact .inr (.inr (.inr ⟨op, others, rfl, hothers, rfl⟩))
  · rw [hfault] at h
    cases h

/-- A character that is not passed ends a run. -/
theorem leafRuns_notPassed {c : Char} (h : ¬IsPassed c) (current : Option LeafRun) (position : Nat)
    (rest : List Char) :
    leafRuns current position (c :: rest) =
      current.toList ++ leafRuns none (position + c.utf8Size) rest :=
  leafRuns_mark (Bool.eq_false_iff.2 fun hleaf ↦ h (.inl hleaf)) (fun hspace ↦ h (.inr hspace))
    current position rest

/-- The character of an operator is one byte long. -/
theorem utf8Size_character (op : Operator) : op.character.utf8Size = 1 := by
  cases op <;> rfl

/-- The scan for operators does not pass over them. -/
theorem not_isPassed_character (op : Operator) : ¬IsPassed op.character := by
  cases op <;> decide

/-- The scan for operators does not pass over an opening parenthesis. -/
theorem not_isPassed_openParen : ¬IsPassed '(' := by decide

/-- The scan for operators does not pass over a closing parenthesis. -/
theorem not_isPassed_closeParen : ¬IsPassed ')' := by decide

/-! ### Runs and their leaves -/

/-- The leaves of two lists of runs, one behind the other. -/
theorem leavesOfRuns_append (front back : List LeafRun) :
    leavesOfRuns mode (front ++ back) =
      (leavesOfRuns mode front).bind fun before ↦ (leavesOfRuns mode back).map (before ++ ·) := by
  induction front with
  | nil =>
    rw [List.nil_append, leavesOfRuns]
    cases leavesOfRuns mode back <;> rfl
  | cons run rest ih =>
    rw [List.cons_append, leavesOfRuns, leavesOfRuns]
    cases run.leaf mode with
    | error fault => rfl
    | ok leaf =>
      simp only [ih]
      cases leavesOfRuns mode rest with
      | error fault => rfl
      | ok before => cases leavesOfRuns mode back <;> rfl

/-- Leaves of runs that are found one after the other. -/
theorem exists_of_leavesOfRuns_append {front back : List LeafRun} {found : List (Nat × Expr)}
    (h : leavesOfRuns mode (front ++ back) = .ok found) :
    ∃ before after, leavesOfRuns mode front = .ok before ∧ leavesOfRuns mode back = .ok after ∧
      found = before ++ after := by
  rw [leavesOfRuns_append] at h
  cases hfront : leavesOfRuns mode front with
  | error fault =>
    rw [hfront] at h
    cases h
  | ok before =>
    rw [hfront] at h
    obtain ⟨after, hafter, rfl⟩ := exists_of_map_eq_ok h
    exact ⟨before, after, rfl, hafter, rfl⟩

/-- The leaf of a run stands where the run begins. -/
theorem exists_of_leavesOfRuns_singleton {run : LeafRun} {found : List (Nat × Expr)}
    (h : leavesOfRuns mode [run] = .ok found) :
    ∃ operand, leafOfText mode run.text = .ok operand ∧ found = [(run.span.start, operand)] := by
  rw [leavesOfRuns] at h
  unfold LeafRun.leaf at h
  cases hleaf : leafOfText mode run.text with
  | error cause =>
    rw [hleaf] at h
    cases h
  | ok operand =>
    rw [hleaf] at h
    cases h
    exact ⟨operand, rfl, rfl⟩

/-- What is gathered from a text is found by both scans. -/
theorem exists_of_gatherCharacters {text : List Char} {gathered : Gathered}
    (h : gatherCharacters mode text = .ok gathered) :
    ∃ operators found, scanOperators [] 0 text = .ok operators ∧
      leavesOfRuns mode (leafRuns none 0 text) = .ok found ∧
      gathered = ⟨.ofList found, operators⟩ := by
  obtain ⟨operators, hoperators, h⟩ := exists_of_bind_eq_ok h
  obtain ⟨found, hfound, h⟩ := exists_of_bind_eq_ok h
  cases h
  exact ⟨operators, found, hoperators, hfound, rfl⟩

/-! ### Sequences -/

/-- Where the elements of a text can begin, given the run that is being read. -/
def startOfRun (current : Option LeafRun) (position : Nat) : Nat :=
  match current with
  | some run => run.span.start
  | none => position

/-- The run that is being read has begun before. -/
theorem startOfRun_le {current : Option LeafRun} {position : Nat}
    (hcurrent : ∀ run ∈ current, run.span.start < position) :
    startOfRun current position ≤ position := by
  cases current with
  | none => exact Nat.le_refl _
  | some run => exact Nat.le_of_lt (hcurrent run rfl)

/-- A run begins where its first character stands. -/
theorem start_extend (current : Option LeafRun) (c : Char) (position : Nat) :
    (LeafRun.extend current c (.ofLength position c.utf8Size)).span.start =
      startOfRun current position := by
  cases current <;> rfl

/-- Leaves and operators are those of a sequence between two positions. -/
def AreElements (found : List (Nat × Expr)) (operators : List Occurrence) (start stop : Nat) :
    Prop :=
  ∃ elements, leaves elements = found ∧ occurrences elements = operators ∧
    Spread start stop elements

/-- The elements of two parts of a text, one behind the other. -/
theorem AreElements.append {found others : List (Nat × Expr)}
    {operators following : List Occurrence} {start middle stop : Nat}
    (h : AreElements found operators start middle)
    (hothers : AreElements others following middle stop)
    (hstart : start ≤ middle) (hstop : middle ≤ stop) :
    AreElements (found ++ others) (operators ++ following) start stop := by
  obtain ⟨front, rfl, rfl, hfront⟩ := h
  obtain ⟨back, rfl, rfl, hback⟩ := hothers
  exact ⟨front ++ back, by simp, by simp, .append middle hstart hstop hfront hback⟩

/-- The leaf of the run that is being read. -/
theorem areElements_of_run {current : Option LeafRun} {position : Nat}
    (hcurrent : ∀ run ∈ current, run.span.start < position) {found : List (Nat × Expr)}
    (h : leavesOfRuns mode current.toList = .ok found) :
    AreElements found [] (startOfRun current position) position := by
  cases current with
  | none =>
    cases h
    exact ⟨[], rfl, rfl, .nil⟩
  | some run =>
    obtain ⟨operand, -, rfl⟩ := exists_of_leavesOfRuns_singleton h
    exact ⟨[.leaf run.span.start operand], rfl, rfl,
      .singleton (Nat.le_refl _) (hcurrent run rfl)⟩

/-- The leaves and operators that are found in a text are those of a sequence. -/
theorem areElements_of_scan {opened : List Text.Span} {current : Option LeafRun}
    {position : Nat} {text : List Char} {operators : List Occurrence} {found : List (Nat × Expr)}
    (hcurrent : ∀ run ∈ current, run.span.start < position)
    (hoperators : scanOperators opened position text = .ok operators)
    (hleaves : leavesOfRuns mode (leafRuns current position text) = .ok found) :
    AreElements found operators (startOfRun current position)
      (position + Text.byteLength text) := by
  induction text generalizing opened current position operators found with
  | nil =>
    obtain rfl : operators = [] := by
      cases opened with
      | nil =>
        cases hoperators
        rfl
      | cons last outer => cases hoperators
    exact areElements_of_run hcurrent hleaves
  | cons c rest ih =>
    have hsize : 0 < c.utf8Size := c.utf8Size_pos
    have hlength : position + Text.byteLength (c :: rest) =
        position + c.utf8Size + Text.byteLength rest := (Nat.add_assoc _ _ _).symm
    rw [hlength]
    -- what ends a run comes after it, and the rest of the text begins anew
    have hends (hnotPassed : ¬IsPassed c) {opened : List Text.Span} {others : List Occurrence}
        (hothers : scanOperators opened (position + c.utf8Size) rest = .ok others)
        {mark : List Occurrence} (hmark : AreElements [] mark position (position + c.utf8Size)) :
        AreElements found (mark ++ others) (startOfRun current position)
          (position + c.utf8Size + Text.byteLength rest) := by
      rw [leafRuns_notPassed hnotPassed] at hleaves
      obtain ⟨before, after, hbefore, hafter, rfl⟩ := exists_of_leavesOfRuns_append hleaves
      have hrest := ih (fun _ hnone ↦ absurd hnone (Option.not_mem_none _)) hothers hafter
      exact (areElements_of_run hcurrent hbefore).append
        (hmark.append hrest (Nat.le_add_right _ _) (Nat.le_add_right _ _))
        (startOfRun_le hcurrent) (by omega)
    rcases cases_of_scanOperators hoperators with ⟨hleaf | rfl, hrest⟩ | ⟨rfl, hrest⟩ |
      ⟨rfl, last, outer, rfl, hrest⟩ | ⟨op, others, rfl, hrest, rfl⟩
    · rw [leafRuns] at hleaves
      simp only [hleaf, if_true] at hleaves
      rw [← start_extend current c]
      refine ih (fun run hrun ↦ ?_) hrest hleaves
      cases hrun
      rw [start_extend]
      exact Nat.lt_of_le_of_lt (startOfRun_le hcurrent) (Nat.lt_add_of_pos_right hsize)
    · obtain ⟨elements, hfound, hoccurrences, hspread⟩ :=
        ih (fun run hrun ↦ Nat.lt_succ_of_lt (hcurrent run hrun)) hrest hleaves
      refine ⟨elements, hfound, hoccurrences, hspread.mono ?_ (Nat.le_refl _)⟩
      cases current with
      | none => exact Nat.le_succ position
      | some run => exact Nat.le_refl _
    · exact hends not_isPassed_openParen hrest ⟨[], rfl, rfl, .nil⟩
    · exact hends not_isPassed_closeParen hrest ⟨[], rfl, rfl, .nil⟩
    · rw [← utf8Size_character op] at hrest
      exact hends (not_isPassed_character op) hrest
        ⟨[.operator (.ofDepth position op opened.length)], rfl, rfl,
          .singleton (Nat.le_refl _) (Nat.lt_add_of_pos_right hsize)⟩

/-- A text is scanned into a sequence: its operators, and the leaves of its runs. -/
structure Scanned (mode : Mode) (text : List Char) (elements : List Element) : Prop where
  operators : scanOperators [] 0 text = .ok (occurrences elements)
  leaves : leavesOfRuns mode (leafRuns none 0 text) = .ok (leaves elements)
  spread : Spread 0 (Text.byteLength text) elements

/-- A text that is scanned is read as the tree of its sequence. -/
theorem Scanned.result?_read {text : List Char} {elements : List Element}
    (h : Scanned mode text elements) :
    (readCharacters mode text).result? = (Gathered.ofElements elements).tree? := by
  have hgather : gatherCharacters mode text = .ok (Gathered.ofElements elements) := by
    rw [gatherCharacters, h.operators, h.leaves]
    show Except.ok (Gathered.mk (.ofList (Formula.leaves elements)) (occurrences elements)) = _
    rw [Gathered.ofList_leaves h.spread.increasing, ← Gathered.operators_ofElements]
  rw [readCharacters, Recorded.result?_andThen, hgather]
  exact Gathered.result?_build _ _ _ _

/-- A text that is read is scanned into a sequence. -/
theorem exists_scanned {text : List Char} {e : Expr}
    (h : (readCharacters mode text).result? = some e) :
    ∃ elements, Scanned mode text elements ∧ (Gathered.ofElements elements).tree? = some e := by
  have houtcome := Recorded.outcome_eq_ok_iff.2 h
  rw [readCharacters, Recorded.outcome_andThen] at houtcome
  obtain ⟨gathered, hgathered, -⟩ := exists_of_bind_eq_ok houtcome
  obtain ⟨operators, found, hoperators, hleaves, -⟩ := exists_of_gatherCharacters hgathered
  obtain ⟨elements, rfl, rfl, hspread⟩ :=
    areElements_of_scan (fun _ hnone ↦ absurd hnone (Option.not_mem_none _)) hoperators hleaves
  rw [Nat.zero_add] at hspread
  have hscanned : Scanned mode text elements := ⟨hoperators, hleaves, hspread⟩
  exact ⟨elements, hscanned, hscanned.result?_read.symm.trans h⟩

/-! ### Texts inside parentheses -/

/-- A text inside parentheses. -/
def enclosed (text : List Char) : List Char := '(' :: (text ++ [')'])

/-- Parentheses around a text are two bytes. -/
theorem byteLength_enclosed (text : List Char) :
    Text.byteLength (enclosed text) = Text.byteLength text + 2 := by
  show '('.utf8Size + Text.byteLength (text ++ [')']) = _
  rw [Text.byteLength_append]
  show 1 + (Text.byteLength text + 1) = _
  omega

/-- A text without a fault has the same operators among other texts, with the parentheses around it
counted in. -/
theorem scanOperators_append {inner : List Text.Span} {position : Nat} {text : List Char}
    {operators : List Occurrence} (h : scanOperators inner position text = .ok operators)
    (moved : List Text.Span) (hmoved : moved.length = inner.length) (outer : List Text.Span)
    (distance : Nat) (rest : List Char) :
    scanOperators (moved ++ outer) (position + distance) (text ++ rest) =
      (scanOperators outer (position + distance + Text.byteLength text) rest).map
        (operators.map (Occurrence.enclose outer.length distance) ++ ·) := by
  -- the parentheses opened inside lie on top of those around, and only their number counts
  induction text generalizing inner position operators moved with
  | nil =>
    cases inner with
    | cons last others => cases h
    | nil =>
      cases h
      rw [List.length_eq_zero_iff.1 hmoved]
      show scanOperators outer (position + distance) rest = _
      cases hrest : scanOperators outer (position + distance) rest <;>
        simp [Text.byteLength, hrest, Except.map]
  | cons c text ih =>
    have hlength : position + distance + Text.byteLength (c :: text) =
        position + c.utf8Size + distance + Text.byteLength text := by
      rw [Text.byteLength]
      omega
    rw [List.cons_append, hlength]
    rcases cases_of_scanOperators h with ⟨hpassed, hrest⟩ | ⟨rfl, hrest⟩ |
      ⟨rfl, last, others, rfl, hrest⟩ | ⟨op, others, rfl, hrest, rfl⟩
    · rw [scanOperators_passed hpassed, Nat.add_right_comm]
      exact ih hrest moved hmoved
    · rw [scanOperators_openParen, Nat.add_right_comm]
      exact ih hrest (.ofLength (position + distance) 1 :: moved) (congrArg Nat.succ hmoved)
    · obtain ⟨first, moved, rfl⟩ := List.exists_cons_of_length_eq_add_one hmoved
      rw [List.cons_append, scanOperators_closeParen, Nat.add_right_comm]
      exact ih hrest moved (Nat.succ.inj hmoved)
    · rw [scanOperators_operator, Nat.add_right_comm, ih hrest moved hmoved, utf8Size_character,
        List.length_append, hmoved, List.map_cons, Occurrence.enclose_ofDepth]
      cases scanOperators outer (position + 1 + distance + Text.byteLength text) rest <;> rfl

/-- A run of a text that is moved to the right. -/
def LeafRun.shift (distance : Nat) (run : LeafRun) : LeafRun :=
  ⟨run.text, run.span.start + distance, run.span.stop + distance⟩

/-- The runs of a text that something else than a leaf or a space comes after. -/
theorem leafRuns_append {c : Char} (h : ¬IsPassed c) (current : Option LeafRun)
    (position distance : Nat) (text rest : List Char) :
    leafRuns (current.map (LeafRun.shift distance)) (position + distance) (text ++ c :: rest) =
      (leafRuns current position text).map (LeafRun.shift distance) ++
        leafRuns none (position + distance + Text.byteLength text) (c :: rest) := by
  -- the pending run may have begun before the text, so it is moved along
  induction text generalizing current position with
  | nil =>
    rw [List.nil_append, leafRuns_notPassed h, leafRuns_notPassed h]
    cases current <;> rfl
  | cons first text ih =>
    have hnext (current : Option LeafRun) :
        leafRuns (current.map (LeafRun.shift distance)) (position + distance + first.utf8Size)
            (text ++ c :: rest) =
          (leafRuns current (position + first.utf8Size) text).map (LeafRun.shift distance) ++
            leafRuns none (position + distance + Text.byteLength (first :: text)) (c :: rest) := by
      have hmoved := ih current (position + first.utf8Size)
      rw [Nat.add_right_comm position first.utf8Size, Nat.add_assoc _ first.utf8Size] at hmoved
      exact hmoved
    rw [List.cons_append]
    by_cases hleaf : isLeafChar first = true
    · have hextend : some (LeafRun.extend (current.map (LeafRun.shift distance)) first
            (.ofLength (position + distance) first.utf8Size)) =
          (some (LeafRun.extend current first (.ofLength position first.utf8Size))).map
            (LeafRun.shift distance) := by
        cases current <;> simp [LeafRun.extend, LeafRun.shift, Text.Span.ofLength] <;> omega
      rw [leafRuns, leafRuns]
      simp only [hleaf, if_true]
      rw [hextend]
      exact hnext _
    · by_cases hspace : first = ' '
      · subst hspace
        exact hnext current
      · have hnotPassed : ¬IsPassed first := fun hpassed ↦ hpassed.elim hleaf hspace
        rw [leafRuns_notPassed hnotPassed, leafRuns_notPassed hnotPassed, List.map_append,
          List.append_assoc, ← hnext none]
        cases current <;> rfl

/-- The leaves of runs that are moved to the right. -/
theorem leavesOfRuns_shift {runs : List LeafRun} {found : List (Nat × Expr)}
    (h : leavesOfRuns mode runs = .ok found) (distance : Nat) :
    leavesOfRuns mode (runs.map (LeafRun.shift distance)) =
      .ok (relocateEntries (· + distance) found) := by
  induction runs generalizing found with
  | nil =>
    cases h
    rfl
  | cons run rest ih =>
    obtain ⟨before, after, hrun, hrest, rfl⟩ :=
      exists_of_leavesOfRuns_append (show leavesOfRuns mode ([run] ++ rest) = .ok found from h)
    obtain ⟨operand, hleaf, rfl⟩ := exists_of_leavesOfRuns_singleton hrun
    have hshift : leavesOfRuns mode [run.shift distance] =
        .ok [(run.span.start + distance, operand)] := by
      have hmoved : leafOfText mode (run.shift distance).text = .ok operand := hleaf
      rw [leavesOfRuns, LeafRun.leaf, hmoved]
      rfl
    show leavesOfRuns mode ([run.shift distance] ++ rest.map (LeafRun.shift distance)) = _
    rw [leavesOfRuns_append, hshift, ih hrest]
    rfl

section Enclosed

variable {text : List Char} {elements : List Element}

/-- The operators of a text inside parentheses, and of what comes after it. -/
theorem Scanned.scanOperators_enclosed (h : Scanned mode text elements) (opened : List Text.Span)
    (position : Nat) (rest : List Char) :
    scanOperators opened position (enclosed text ++ rest) =
      (scanOperators opened (position + Text.byteLength (enclosed text)) rest).map
        (occurrences (elements.map (Element.enclose (opened.length + 1) (position + 1))) ++ ·) := by
  have htext : enclosed text ++ rest = '(' :: (text ++ ')' :: rest) := by simp [enclosed]
  have happend := scanOperators_append h.operators [] rfl (.ofLength position 1 :: opened)
    (position + 1) (')' :: rest)
  rw [Nat.zero_add, List.nil_append, scanOperators_closeParen] at happend
  rw [htext, scanOperators_openParen, happend, byteLength_enclosed, occurrences_enclose,
    show position + 1 + Text.byteLength text + 1 = position + (Text.byteLength text + 2) by omega]
  rfl

/-- The leaves of a text inside parentheses, and of what comes after it. -/
theorem Scanned.leavesOfRuns_enclosed (h : Scanned mode text elements) (position : Nat)
    (rest : List Char) :
    leavesOfRuns mode (leafRuns none position (enclosed text ++ rest)) =
      (leavesOfRuns mode (leafRuns none (position + Text.byteLength (enclosed text)) rest)).map
        (Formula.leaves (elements.map (Element.enclose 1 (position + 1))) ++ ·) := by
  have htext : enclosed text ++ rest = '(' :: (text ++ ')' :: rest) := by simp [enclosed]
  have happend := leafRuns_append not_isPassed_closeParen none 0 (position + 1) text rest
  rw [Option.map_none, Nat.zero_add, leafRuns_notPassed not_isPassed_closeParen] at happend
  rw [htext, leafRuns_notPassed not_isPassed_openParen]
  show leavesOfRuns mode (leafRuns none (position + 1) _) = _
  rw [happend, leavesOfRuns_append, leavesOfRuns_shift h.leaves, byteLength_enclosed,
    leaves_enclose]
  show (leavesOfRuns mode (leafRuns none (position + 1 + Text.byteLength text + 1) rest)).map _ = _
  rw [show position + 1 + Text.byteLength text + 1 = position + (Text.byteLength text + 2) by omega]

/-- A text inside parentheses has the elements it has alone. -/
theorem Scanned.enclosed (h : Scanned mode text elements) :
    Scanned mode (enclosed text) (elements.map (Element.enclose 1 1)) := by
  have hoperators := h.scanOperators_enclosed [] 0 []
  have hleaves := h.leavesOfRuns_enclosed 0 []
  rw [List.append_nil] at hoperators hleaves
  refine ⟨?_, ?_, ?_⟩
  · rw [hoperators]
    show Except.ok (_ ++ []) = _
    rw [List.append_nil]
    rfl
  · rw [hleaves]
    show Except.ok (_ ++ []) = _
    rw [List.append_nil]
  · rw [byteLength_enclosed]
    exact (h.spread.enclose 1 1).mono (Nat.zero_le _) (Nat.le_succ _)

/-- Two texts inside parentheses, with an operator between them. -/
def joined (left : List Char) (op : Operator) (right : List Char) : List Char :=
  enclosed left ++ ' ' :: op.character :: ' ' :: enclosed right

/-- An operator between spaces is scanned at its place. -/
theorem scanOperators_spaced (opened : List Text.Span) (position : Nat) (op : Operator)
    (rest : List Char) :
    scanOperators opened position (' ' :: op.character :: ' ' :: rest) =
      (scanOperators opened (position + 3) rest).map
        (.ofDepth (position + 1) op opened.length :: ·) := by
  rw [scanOperators_passed (.inr rfl), scanOperators_operator, scanOperators_passed (.inr rfl)]
  rfl

/-- An operator between spaces is part of no run. -/
theorem leafRuns_spaced (position : Nat) (op : Operator) (rest : List Char) :
    leafRuns none position (' ' :: op.character :: ' ' :: rest) =
      leafRuns none (position + 3) rest := by
  show leafRuns none (position + 1) (op.character :: _) = _
  rw [leafRuns_notPassed (not_isPassed_character op), utf8Size_character]
  rfl

/-- Two texts inside parentheses have their elements on both sides of the operator. -/
theorem Scanned.joined {other : List Char} {others : List Element}
    (h : Scanned mode text elements) (hother : Scanned mode other others) (op : Operator) :
    Scanned mode (joined text op other) (elements.map (Element.enclose 1 1) ++
      .operator (.ofDepth (Text.byteLength text + 3) op 0) ::
        others.map (Element.enclose 1 (Text.byteLength text + 6))) := by
  have hlength : Text.byteLength (Formula.joined text op other) =
      Text.byteLength text + 5 + (Text.byteLength other + 2) := by
    rw [Formula.joined, Text.byteLength_append, byteLength_enclosed, ← byteLength_enclosed other]
    show _ + (1 + (op.character.utf8Size + (1 + Text.byteLength (Formula.enclosed other)))) = _
    rw [utf8Size_character]
    omega
  have hposition : 0 + (Text.byteLength text + 2) = Text.byteLength text + 2 := Nat.zero_add _
  have hoperators := hother.scanOperators_enclosed [] (Text.byteLength text + 5) []
  have hleaves := hother.leavesOfRuns_enclosed (Text.byteLength text + 5) []
  rw [List.append_nil] at hoperators hleaves
  refine ⟨?_, ?_, ?_⟩
  · rw [Formula.joined, h.scanOperators_enclosed, byteLength_enclosed, hposition,
      scanOperators_spaced, hoperators]
    show Except.ok (_ ++ _ :: (_ ++ [])) = _
    rw [List.append_nil, occurrences_append, occurrences_cons_operator]
    rfl
  · rw [Formula.joined, h.leavesOfRuns_enclosed, byteLength_enclosed, hposition, leafRuns_spaced,
      hleaves]
    show Except.ok (_ ++ (_ ++ [])) = _
    rw [List.append_nil, leaves_append, leaves_cons_operator]
  · have hleft := h.spread.enclose 1 1
    have hright := hother.spread.enclose 1 (Text.byteLength text + 6)
    rw [hlength]
    refine .append (Text.byteLength text + 2) (Nat.zero_le _) (by omega)
      (hleft.mono (Nat.zero_le _) (Nat.le_succ _)) ?_
    exact .cons (Nat.le_succ _) (Nat.lt_succ_self (Text.byteLength text + 3)) (by omega)
      (hright.mono (by omega) (by omega))

end Enclosed

end Nabla.Formula
