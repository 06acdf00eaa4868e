import Nabla.Proofs.Formula.CharacterRegions
import Nabla.Proofs.Session.Transition
import Nabla.Proofs.Text.WordRuns

/-!
# Regions of the failures of a line

Whatever fails can be shown (`reported_regions_visible`). A command points at a word of its line, or
at what follows its name. An unreadable text is the line itself or a component of a field, and the
region is one of that text, not of the line it is taken from.
-/

namespace Nabla

open Text (Span Word)

/-- The components of a field line: what stands between the separators after the name of the
command, without the white space around it. -/
def Session.componentsOf (line : List Char) : List (List Char) :=
  match (Text.words line).head? with
  | some name => (Text.fields ';' (Text.dropBytes name.span.stop line)).map Text.trim
  | none => []

/-- The region of a failure can be shown: in the line if a command is rejected, and in the
unreadable text otherwise, which is the line or a component of its field. -/
inductive Failure.ShownIn (line : List Char) : Failure → Prop where
  | rejected {fault : CommandFault} (hfault : fault.VisibleIn line) :
      ShownIn line (.rejected fault)
  | line {fault : Formula.Fault} (hline : Session.isCommandLine line = false)
      (hfault : fault.VisibleIn line) : ShownIn line (.unreadable line fault)
  | component {input : List Char} {fault : Formula.Fault}
      (hcommand : Session.commandOf? line = some .field)
      (hinput : input ∈ Session.componentsOf line) (hfault : fault.VisibleIn input) :
      ShownIn line (.unreadable input fault)

/-! ### Failures of two stages -/

/-- Every failure of an outcome has a property. -/
def FailsWith {α : Type} (property : Failure → Prop) (outcome : Except Failure α) : Prop :=
  ∀ failure, outcome = .error failure → property failure

namespace FailsWith

variable {α β : Type} {property : Failure → Prop}

/-- A result is no failure. -/
theorem ok (result : α) : FailsWith property (.ok result) := fun _ h ↦ nomatch h

/-- The failures of two stages are those of the first one, and those of the second one after a
result of the first one. -/
theorem bind {first : Except Failure α} {next : α → Except Failure β}
    (hfirst : FailsWith property first)
    (hnext : ∀ found, first = .ok found → FailsWith property (next found)) :
    FailsWith property (first >>= next) := by
  intro failure h
  rcases exists_of_bind_eq_error h with h | ⟨found, hfound, h⟩
  · exact hfirst failure h
  · exact hnext found hfound failure h

/-- The failures of a list of words are those of the words. -/
theorem mapM {words : List Word} {f : Word → Except Failure β}
    (h : ∀ word ∈ words, FailsWith property (f word)) : FailsWith property (words.mapM f) := by
  induction words with
  | nil => exact .ok []
  | cons word rest ih =>
    obtain ⟨hword, hrest⟩ := List.forall_mem_cons.1 h
    rw [List.mapM_cons]
    exact hword.bind fun _ _ ↦ (ih hrest).bind fun others _ ↦ .ok (_ :: others)

/-- The same of the steps of an action. The second one goes on in the session that the first one
leaves. -/
theorem run_bind {session : Session} {first : Session.Action α} {next : α → Session.Action β}
    (hfirst : FailsWith property (session.run first).2)
    (hnext : ∀ found, (session.run first).2 = .ok found →
      ∀ reached : Session, FailsWith property (reached.run (next found)).2) :
    FailsWith property (session.run (first >>= next)).2 := by
  rw [Session.run_bind]
  cases hstep : session.run first with
  | mk reached outcome =>
    rw [hstep] at hfirst hnext
    cases outcome with
    | error failure =>
      intro _ h
      cases h
      exact hfirst failure rfl
    | ok found => exact hnext found rfl reached

end FailsWith

/-- The words of a command are words of its line. -/
structure Request.LocatedIn (request : Request) (line : List Char) : Prop where
  same : request.line = line
  name : request.name.span.ShowsIn line
  arguments : ∀ word ∈ request.arguments, word.span.ShowsIn line

namespace Session

variable {session : Session} {line : List Char} {request : Request}

/-! ### Rejected commands -/

/-- A command is rejected at a region of its line. -/
theorem shownIn_of_reject {α : Type} {cause : CommandCause} {span : Span} (h : span.ShowsIn line) :
    FailsWith (Failure.ShownIn line) (reject cause span : Except Failure α) := by
  intro failure hfailure
  cases hfailure
  exact .rejected ⟨span, rfl, h.visibleIn⟩

/-- A missing argument is shown at the name of the command, and one that is too many at its place.
-/
theorem shownIn_of_onlyArgument (h : request.LocatedIn line) (expected : Expectation) :
    FailsWith (Failure.ShownIn line) (onlyArgument request expected) := by
  have harguments := h.arguments
  unfold onlyArgument
  split
  · exact shownIn_of_reject h.name
  · exact .ok _
  · rename_i first second others heq
    exact shownIn_of_reject (harguments second (by simp [heq]))

/-- The only argument is one of the arguments. -/
theorem mem_of_onlyArgument {expected : Expectation} {word : Word}
    (h : onlyArgument request expected = .ok word) : word ∈ request.arguments := by
  unfold onlyArgument at h
  split at h
  · cases h
  · rename_i argument heq
    cases h
    rw [heq]
    exact List.mem_cons_self
  · cases h

/-- A word that stands for nothing is shown. -/
theorem shownIn_of_interpret {α : Type} {expected : Expectation} {meaning : List Char → Option α}
    {word : Word} (h : word.span.ShowsIn line) :
    FailsWith (Failure.ShownIn line) (interpret expected meaning word) := by
  unfold interpret
  split
  · exact .ok _
  · exact shownIn_of_reject h

/-- A setting that is not chosen is shown at the words of the command. -/
theorem shownIn_of_choose {α : Type} (h : request.LocatedIn line) {expected : Expectation}
    {meaning : List Char → Option α} {assign : α → Session → Session} {shown : Session → String} :
    FailsWith (Failure.ShownIn line)
      (session.run (choose request expected meaning assign shown)).2 := by
  refine FailsWith.run_bind (shownIn_of_onlyArgument h expected) fun argument hargument _ ↦ ?_
  have hword := h.arguments argument (mem_of_onlyArgument hargument)
  exact FailsWith.run_bind (shownIn_of_interpret hword) fun _ _ _ ↦ .ok _

/-- A command that lacks a current expression is shown at its name. -/
theorem shownIn_of_needCurrent (h : request.LocatedIn line) :
    FailsWith (Failure.ShownIn line) (session.run (needCurrent request)).2 := by
  refine FailsWith.run_bind (.ok session) fun settings _ _ ↦ ?_
  cases settings.current with
  | none => exact shownIn_of_reject h.name
  | some e => exact .ok e

/-- What is no point is shown at a word of the command. -/
theorem shownIn_of_coordinatesOf (h : request.LocatedIn line) :
    FailsWith (Failure.ShownIn line) (coordinatesOf request) := by
  have harguments := h.arguments
  unfold coordinatesOf
  split
  · exact shownIn_of_reject h.name
  · rename_i first second third fourth others heq
    exact shownIn_of_reject (harguments fourth (by simp [heq]))
  · exact .mapM fun word hword ↦ shownIn_of_interpret (harguments word hword)

/-- The failure of an evaluation can be shown. -/
theorem shownIn_of_answerEval (h : request.LocatedIn line) :
    FailsWith (Failure.ShownIn line) (session.run (answerEval request)).2 :=
  FailsWith.run_bind (shownIn_of_needCurrent h) fun _ _ _ ↦
    FailsWith.run_bind (shownIn_of_coordinatesOf h) fun _ _ _ ↦ .ok _

/-- The failure of a differentiation can be shown. -/
theorem shownIn_of_answerDiff (h : request.LocatedIn line) :
    FailsWith (Failure.ShownIn line) (session.run (answerDiff request)).2 := by
  refine FailsWith.run_bind (shownIn_of_needCurrent h) fun e _ _ ↦ ?_
  refine FailsWith.run_bind (shownIn_of_onlyArgument h .symbol) fun argument hargument _ ↦ ?_
  have hword := h.arguments argument (mem_of_onlyArgument hargument)
  exact FailsWith.run_bind (shownIn_of_interpret hword) fun _ _ _ ↦ .ok _

/-! ### Unreadable texts -/

/-- A text that is not read is stored with a fault that can be shown in it. -/
theorem visibleIn_of_readExpr {mode : Mode} {input : List Char} {output : List String} :
    FailsWith (fun failure ↦ ∃ fault, failure = .unreadable input fault ∧ fault.VisibleIn input)
      (session.run (readExpr mode input output)).2 := by
  refine FailsWith.run_bind (.ok session) fun settings _ _ ↦ ?_
  simp only
  split
  · exact .ok _
  · rename_i fault hfault
    intro failure h
    cases h
    exact ⟨fault, rfl, Formula.visibleIn_parse hfault⟩

/-- What follows the name of a command, if it is not blank, can be shown, and else the name. -/
theorem shownIn_of_rejectComponents {α : Type} (h : request.LocatedIn line)
    (components : List (List Char)) :
    FailsWith (Failure.ShownIn line) (rejectComponents request
      (Text.dropBytes request.name.span.stop request.line) components : Except Failure α) := by
  refine shownIn_of_reject ?_
  rw [h.same]
  split
  · exact h.name
  · rename_i hblank
    obtain ⟨front, back, hline, hstop⟩ := h.name.stop
    refine ⟨h.name.stop, .byteLength line, ?_⟩
    rw [← hstop, ← hline, Text.dropBytes_append] at hblank
    -- a region has to contain something, and what is not blank is not empty
    have hback : back ≠ [] := fun hnil ↦ hblank (by rw [hnil]; rfl)
    show request.name.span.stop < Text.byteLength line
    rw [← hstop, ← hline, Text.byteLength_append]
    exact Nat.lt_add_of_pos_right (Text.byteLength_pos hback)

/-- A field that is not three components is shown at what follows the name of the command. -/
theorem shownIn_of_threeComponents (h : request.LocatedIn line) :
    FailsWith (Failure.ShownIn line) (threeComponents request) := by
  unfold threeComponents
  simp only
  split
  · split
    · exact shownIn_of_rejectComponents h _
    · exact .ok _
  · exact shownIn_of_rejectComponents h _

/-- The texts that are found are the components of the field. -/
theorem componentsOf_of_threeComponents (h : request.LocatedIn line)
    (hname : (Text.words line).head? = some request.name) {first second third : List Char}
    (hfound : threeComponents request = .ok (first, second, third)) :
    componentsOf line = [first, second, third] := by
  have hcomponents : componentsOf line =
      (Text.fields ';' (Text.dropBytes request.name.span.stop request.line)).map Text.trim := by
    rw [componentsOf, hname, h.same]
  unfold threeComponents at hfound
  simp only at hfound
  split at hfound
  · rename_i heq
    split at hfound
    · cases hfound
    · cases hfound
      exact hcomponents.trans heq
  · cases hfound

/-- A component that is not read is stored with a fault that can be shown in it. -/
theorem shownIn_of_component {mode : Mode} {input : List Char} {output : List String}
    (hcommand : commandOf? line = some .field) (hinput : input ∈ componentsOf line) :
    FailsWith (Failure.ShownIn line) (session.run (readExpr mode input output)).2 := by
  intro failure h
  obtain ⟨fault, rfl, hfault⟩ := visibleIn_of_readExpr failure h
  exact .component hcommand hinput hfault

/-- The failure of a field can be shown. -/
theorem shownIn_of_answerField (h : request.LocatedIn line)
    (hcommand : commandOf? line = some .field)
    (hname : (Text.words line).head? = some request.name) :
    FailsWith (Failure.ShownIn line) (session.run (answerField request)).2 := by
  refine FailsWith.run_bind (shownIn_of_threeComponents h) fun ⟨first, second, third⟩ hfound _ ↦ ?_
  have hcomponents : componentsOf line = [first, second, third] :=
    componentsOf_of_threeComponents h hname hfound
  have hcomponent {reached : Session} {input : List Char} {output : List String}
      (hinput : input ∈ [first, second, third]) : FailsWith (Failure.ShownIn line)
        (reached.run (readExpr .multiVariable input output)).2 :=
    shownIn_of_component hcommand (hcomponents ▸ hinput)
  refine FailsWith.run_bind (hcomponent (by simp)) fun ⟨i, output⟩ _ _ ↦ ?_
  refine FailsWith.run_bind (hcomponent (by simp)) fun ⟨j, output⟩ _ _ ↦ ?_
  exact FailsWith.run_bind (hcomponent (by simp)) fun ⟨k, output⟩ _ _ ↦ .ok _

/-! ### Lines -/

/-- The failure of a command can be shown. -/
theorem shownIn_of_answerCommand (h : request.LocatedIn line)
    (hnamed : commandOf? line = Command.ofWord? request.name.text)
    (hname : (Text.words line).head? = some request.name) :
    FailsWith (Failure.ShownIn line) (session.run (answerCommand request)).2 := by
  unfold answerCommand
  rw [← hnamed]
  cases hcommand : commandOf? line with
  | none => exact shownIn_of_reject h.name
  | some command =>
    cases command with
    | help => exact .ok _
    | mode | parser | trace => exact shownIn_of_choose h
    | eval => exact shownIn_of_answerEval h
    | diff => exact shownIn_of_answerDiff h
    | simplify => exact FailsWith.run_bind (shownIn_of_needCurrent h) fun _ _ _ ↦ .ok _
    | field => exact shownIn_of_answerField h hcommand hname

/-- The failure of a line that is an expression can be shown. -/
theorem shownIn_of_answerExpression (hline : isCommandLine line = false) :
    FailsWith (Failure.ShownIn line) (session.run (answerExpression line)).2 := by
  refine FailsWith.run_bind (.ok session) fun settings _ _ ↦ ?_
  refine FailsWith.run_bind (fun failure h ↦ ?_) fun ⟨e, output⟩ _ _ ↦ .ok _
  obtain ⟨fault, rfl, hfault⟩ := visibleIn_of_readExpr failure h
  exact .line hline hfault

/-- The failure of a line can be shown. -/
theorem shownIn_of_answer : FailsWith (Failure.ShownIn line) (session.run (answer line)).2 := by
  unfold answer
  cases hline : isCommandLine line with
  | false =>
    rw [if_neg Bool.false_ne_true]
    exact shownIn_of_answerExpression hline
  | true =>
    rw [if_pos rfl]
    cases hwords : Text.words line with
    | nil => exact .ok _
    | cons name arguments =>
      have hshows (word : Word) (hword : word ∈ name :: arguments) : word.span.ShowsIn line :=
        Text.showsIn_words (hwords ▸ hword)
      refine shownIn_of_answerCommand ⟨rfl, hshows name List.mem_cons_self, fun word hword ↦
        hshows word (List.mem_cons_of_mem _ hword)⟩ ?_ (by rw [hwords]; rfl)
      simp [commandOf?, hline, hwords]

end Session

/-- Whatever is reported can be shown: a fault of either reader in the text that is read, and a
failure of a session in the line or in the unreadable text. -/
theorem reported_regions_visible :
    (∀ (reader : Formula.Reader) (mode : Mode) (text : List Char) (fault : Formula.Fault),
      reader.parse mode text = .error fault → fault.VisibleIn text) ∧
    ∀ (session : Session) (line : List Char) (failure : Failure),
      (session.execute line).2 = .error failure → failure.ShownIn line :=
  ⟨fun _ _ _ _ h ↦ Formula.visibleIn_parse h,
    fun _ _ failure h ↦ Session.shownIn_of_answer failure h⟩

/-- A character of two bytes is no expression, neither alone nor as a component of a field. -/
theorem reported_regions_visible_two_bytes :
    (Formula.Reader.direct.parse .multiVariable "é".toList =
        .error ⟨.illegalCharacter 'é', [⟨0, 2⟩]⟩ ∧ (Span.mk 0 2).VisibleIn "é".toList) ∧
      (Session.execute ⟨.multiVariable, .direct, false, none⟩ ":field x ; é ; y".toList).2 =
        .error (.unreadable "é".toList ⟨.illegalCharacter 'é', [⟨0, 2⟩]⟩) ∧
      Failure.ShownIn ":field x ; é ; y".toList
        (.unreadable "é".toList ⟨.illegalCharacter 'é', [⟨0, 2⟩]⟩) := by
  have hparse : Formula.Reader.direct.parse .multiVariable "é".toList =
      .error ⟨.illegalCharacter 'é', [⟨0, 2⟩]⟩ := by
    rfl
  have hexecute : (Session.execute ⟨.multiVariable, .direct, false, none⟩
      ":field x ; é ; y".toList).2 =
        .error (.unreadable "é".toList ⟨.illegalCharacter 'é', [⟨0, 2⟩]⟩) := by
    rfl
  obtain ⟨span, hspans, hspan⟩ := reported_regions_visible.1 _ _ _ _ hparse
  cases hspans
  exact ⟨⟨hparse, hspan⟩, hexecute, reported_regions_visible.2 _ _ _ hexecute⟩

end Nabla
