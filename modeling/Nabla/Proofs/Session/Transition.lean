import Nabla.Proofs.Session.Actions

/-!
# What a line does to a session

`Transition` lists every way a line that is carried out can change a session: an expression becomes
the current one, a setting is chosen, the current expression is differentiated or simplified, or
nothing changes. There is no other way, and a line that fails changes nothing (`ends_answer`). This
is shown command by command: each has its checks in front of the one assignment that it makes.
-/

namespace Nabla

namespace Session

variable {session : Session} {line : List Char} {request : Request}

/-- The command of a line, if the line names one. -/
def commandOf? (line : List Char) : Option Command :=
  if isCommandLine line then
    (Text.words line).head?.bind fun name ↦ Command.ofWord? name.text
  else none

/-- The session after a line that is carried out. -/
inductive Transition (session : Session) (line : List Char) : Session → Prop where
  | read {e : Expr} (hline : isCommandLine line = false)
      (hread : session.reader.parse session.mode line = .ok e) :
      Transition session line { session with current := some e }
  | mode (hcommand : commandOf? line = some .mode) (mode : Mode) :
      Transition session line { session with mode }
  | reader (hcommand : commandOf? line = some .parser) (reader : Formula.Reader) :
      Transition session line { session with reader }
  | trace (hcommand : commandOf? line = some .trace) (trace : Bool) :
      Transition session line { session with trace }
  | diff {e : Expr} (hcommand : commandOf? line = some .diff) (hcurrent : session.current = some e)
      (name : Symbol) :
      Transition session line { session with current := some (e.derivative name).simplify }
  | simplify {e : Expr} (hcommand : commandOf? line = some .simplify)
      (hcurrent : session.current = some e) :
      Transition session line { session with current := some e.simplify }
  | unchanged : Transition session line session

/-! ### Expressions -/

/-- Reading an expression changes nothing. -/
theorem readsOnly_readExpr (mode : Mode) (input : List Char) (output : List String) :
    (readExpr mode input output).ReadsOnly := by
  refine .bind .get fun session ↦ ?_
  simp only
  split
  · exact .pure _
  · exact .throw _

/-- What is read is read by the reader of the session. -/
theorem parse_of_readExpr {mode : Mode} {input : List Char} {output : List String}
    {found : Expr × List String} (h : (session.run (readExpr mode input output)).2 = .ok found) :
    session.reader.parse mode input = .ok found.1 := by
  unfold readExpr at h
  rw [run_bind, run_get] at h
  unfold Formula.Reader.parse
  cases houtcome : (session.reader.read mode input).outcome with
  | error fault =>
    simp only [houtcome, run_throw] at h
    cases h
  | ok e =>
    simp only [houtcome, run_pure] at h
    cases h
    rfl

/-- An expression that is read becomes the current one. -/
theorem ends_answerExpression (hline : isCommandLine line = false) :
    session.Ends (answerExpression line) (Transition session line) := by
  -- the mode is looked up, the text is read, and only then the expression is assigned
  refine .check .get fun found hfound ↦ ?_
  cases hfound
  refine .check (readsOnly_readExpr _ _ _) fun ⟨e, output⟩ hread ↦ ?_
  exact .assign (.read hline (parse_of_readExpr hread)) fun _ ↦ ⟨_, rfl⟩

/-! ### Settings -/

/-- A setting that is chosen is assigned after its word is checked. -/
theorem ends_choose {α : Type} {expected : Expectation} {meaning : List Char → Option α}
    {assign : α → Session → Session} {shown : Session → String} {after : Session → Prop}
    (h : ∀ chosen, after (assign chosen session)) :
    session.Ends (choose request expected meaning assign shown) after := by
  refine .check (.lift _) fun argument _ ↦ .check (.lift _) fun chosen _ ↦ ?_
  exact .assign (h chosen) fun reached ↦ ⟨[shown reached], rfl⟩

/-! ### The current expression -/

/-- Looking for the current expression changes nothing. -/
theorem readsOnly_needCurrent (request : Request) : (needCurrent request).ReadsOnly := by
  refine .bind .get fun session ↦ ?_
  cases session.current with
  | none => exact .lift _
  | some e => exact .pure e

/-- What is found is the current expression. -/
theorem current_of_needCurrent {e : Expr} (h : (session.run (needCurrent request)).2 = .ok e) :
    session.current = some e := by
  unfold needCurrent at h
  rw [run_bind, run_get] at h
  cases hcurrent : session.current with
  | none =>
    simp only [hcurrent] at h
    cases h
  | some found =>
    simp only [hcurrent] at h
    cases h
    rfl

/-- To evaluate the current expression changes nothing. -/
theorem readsOnly_answerEval (request : Request) : (answerEval request).ReadsOnly :=
  .bind (readsOnly_needCurrent request) fun _ ↦ .bind (.lift _) fun _ ↦ .pure _

/-- The derivative of the current expression becomes the current one. -/
theorem ends_answerDiff (hcommand : commandOf? line = some .diff) :
    session.Ends (answerDiff request) (Transition session line) := by
  refine .check (readsOnly_needCurrent request) fun e hcurrent ↦ ?_
  refine .check (.lift _) fun argument _ ↦ .check (.lift _) fun name _ ↦ ?_
  exact .assign (.diff hcommand (current_of_needCurrent hcurrent) name) fun _ ↦ ⟨_, rfl⟩

/-- The simplified form of the current expression becomes the current one. -/
theorem ends_answerSimplify (hcommand : commandOf? line = some .simplify) :
    session.Ends (answerSimplify request) (Transition session line) := by
  refine .check (readsOnly_needCurrent request) fun e hcurrent ↦ ?_
  exact .assign (.simplify hcommand (current_of_needCurrent hcurrent)) fun _ ↦ ⟨_, rfl⟩

/-! ### Vector fields -/

/-- To print a vector field changes nothing. -/
theorem readsOnly_answerField (request : Request) : (answerField request).ReadsOnly := by
  refine .bind (.lift _) fun ⟨first, second, third⟩ ↦ ?_
  refine .bind (readsOnly_readExpr _ _ _) fun ⟨i, output⟩ ↦ ?_
  refine .bind (readsOnly_readExpr _ _ _) fun ⟨j, output⟩ ↦ ?_
  exact .bind (readsOnly_readExpr _ _ _) fun ⟨k, output⟩ ↦ .pure _

/-! ### Lines -/

/-- A command changes the session in one of the listed ways, or fails and changes nothing. -/
theorem ends_answerCommand (hnamed : commandOf? line = Command.ofWord? request.name.text) :
    session.Ends (answerCommand request) (Transition session line) := by
  unfold answerCommand
  rw [← hnamed]
  cases hcommand : commandOf? line with
  | none => exact .of_readsOnly (.lift _) .unchanged
  | some command =>
    cases command with
    | help => exact .of_readsOnly (.pure _) .unchanged
    | mode => exact ends_choose fun mode ↦ .mode hcommand mode
    | parser => exact ends_choose fun reader ↦ .reader hcommand reader
    | trace => exact ends_choose fun trace ↦ .trace hcommand trace
    | eval => exact .of_readsOnly (readsOnly_answerEval request) .unchanged
    | diff => exact ends_answerDiff hcommand
    | simplify => exact ends_answerSimplify hcommand
    | field => exact .of_readsOnly (readsOnly_answerField request) .unchanged

/-- A line changes the session in one of the listed ways, or fails and changes nothing. -/
theorem ends_answer (session : Session) (line : List Char) :
    session.Ends (answer line) (Transition session line) := by
  unfold answer
  cases hline : isCommandLine line with
  | false =>
    rw [if_neg Bool.false_ne_true]
    exact ends_answerExpression hline
  | true =>
    rw [if_pos rfl]
    cases hwords : Text.words line with
    | nil => exact .of_readsOnly (.pure _) .unchanged
    | cons name arguments =>
      refine ends_answerCommand ?_
      simp [commandOf?, hline, hwords]

/-- A line that is run changes the session in one of the listed ways, or not at all. -/
theorem transition_execute (session : Session) (line : List Char) :
    Transition session line (session.execute line).1 := by
  have hends := session.ends_answer line
  cases h : (session.run (answer line)).2 with
  | ok output => exact hends.ok output h
  | error failure =>
    have hsame : (session.execute line).1 = session := hends.error failure h
    rw [hsame]
    exact .unchanged

end Session

end Nabla
