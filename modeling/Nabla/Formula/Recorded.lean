import Nabla.Expr.Markup
import Nabla.Formula.Lexeme
import Nabla.Formula.Precedence

/-!
# Recorded readings

Reading a text is recorded as a list of events, and the events before a fault are kept. A
`Recorded` value is such a list together with a fault or a result. What would follow a fault leaves
no event.
-/

namespace Nabla.Formula

/-- Something that happened while a text was read. -/
inductive Event where
  /-- A lexeme was read or inserted. -/
  | lexeme (kind : Lexeme.Kind) (offset : Nat) (implicit : Bool)
  /-- A multiplication was inserted between two neighbours. -/
  | implicitMultiplication (offset : Nat)
  /-- The leaves of the range from `start` to `stop` were found. -/
  | leaves (start stop : Nat) (leaves : List (Nat × Expr))
  /-- The operators of the range from `start` to `stop` are built in this order. -/
  | operators (start stop : Nat) (order : List Occurrence)
  /-- The operator at the index was built. -/
  | built (index : Nat) (result : Expr)
deriving DecidableEq

namespace Event

/-- An index in brackets and what stands there. -/
def entryText (index : Nat) (entry : String) : String :=
  " [" ++ toString index ++ "] " ++ entry

/-- An event as one line of text. -/
def text : Event → String
  | lexeme kind offset implicit =>
      "lexeme `" ++ kind.text ++ "` at " ++ toString offset ++
        (if implicit then " (implicit)" else "")
  | implicitMultiplication offset => "implicit multiplication at " ++ toString offset
  | leaves start stop entries =>
      "leaves in " ++ toString start ++ ".." ++ toString stop ++ ":" ++
        String.join (entries.map fun (index, leaf) ↦ entryText index leaf.plain)
  | operators start stop order =>
      "operators in " ++ toString start ++ ".." ++ toString stop ++ ":" ++
        String.join (order.map fun occurrence ↦
          entryText occurrence.index
            (occurrence.operator.character.toString ++ " (" ++ occurrence.precedence.text ++ ")"))
  | built index result => "built" ++ entryText index result.plain

end Event

/-- The events of reading a text, and a fault or a result. -/
structure Recorded (α : Type) where
  events : List Event
  outcome : Except Fault α

namespace Recorded

variable {α β : Type}

/-- A result without events. -/
def done (result : α) : Recorded α := ⟨[], .ok result⟩

/-- A fault without events. -/
def fail (fault : Fault) : Recorded α := ⟨[], .error fault⟩

/-- A fault or a result without events. -/
def ofExcept (outcome : Except Fault α) : Recorded α := ⟨[], outcome⟩

/-- Continue with the result, unless there is a fault. -/
def andThen (first : Recorded α) (next : α → Recorded β) : Recorded β :=
  match first.outcome with
  | .error fault => ⟨first.events, .error fault⟩
  | .ok result =>
      let second := next result
      ⟨first.events ++ second.events, second.outcome⟩

/-- Change the result. -/
def map (f : α → β) (recorded : Recorded α) : Recorded β :=
  ⟨recorded.events, recorded.outcome.map f⟩

/-- Put an event in front. -/
def noting (event : Event) (recorded : Recorded α) : Recorded α :=
  ⟨event :: recorded.events, recorded.outcome⟩

/-- The result, if there is no fault. -/
def result? (recorded : Recorded α) : Option α := recorded.outcome.toOption

/-- A result is an outcome. -/
@[simp] theorem outcome_done (result : α) : (done result).outcome = .ok result := rfl

/-- A fault is an outcome. -/
@[simp] theorem outcome_fail (fault : Fault) : (fail fault : Recorded α).outcome = .error fault :=
  rfl

/-- An outcome without events. -/
@[simp] theorem outcome_ofExcept (outcome : Except Fault α) :
    (ofExcept outcome).outcome = outcome := rfl

/-- The outcome of two stages is that of the second after a result of the first. -/
@[simp] theorem outcome_andThen (first : Recorded α) (next : α → Recorded β) :
    (first.andThen next).outcome = first.outcome.bind fun result ↦ (next result).outcome := by
  unfold andThen
  cases first.outcome <;> rfl

/-- A changed result. -/
@[simp] theorem outcome_map (f : α → β) (recorded : Recorded α) :
    (recorded.map f).outcome = recorded.outcome.map f := rfl

/-- An event has no effect on the outcome. -/
@[simp] theorem outcome_noting (event : Event) (recorded : Recorded α) :
    (recorded.noting event).outcome = recorded.outcome := rfl

/-- An outcome is a result if there is this result. -/
theorem outcome_eq_ok_iff {recorded : Recorded α} {result : α} :
    recorded.outcome = .ok result ↔ recorded.result? = some result := by
  unfold result?
  cases recorded.outcome <;> simp [Except.toOption]

/-- A result is there. -/
@[simp] theorem result?_done (result : α) : (done result).result? = some result := rfl

/-- A fault leaves no result. -/
@[simp] theorem result?_fail (fault : Fault) : (fail fault : Recorded α).result? = none := rfl

/-- The result of two stages is that of the second after a result of the first. -/
@[simp] theorem result?_andThen (first : Recorded α) (next : α → Recorded β) :
    (first.andThen next).result? = first.result?.bind fun result ↦ (next result).result? := by
  unfold andThen result?
  cases first.outcome <;> rfl

/-- A changed result, if there is one. -/
@[simp] theorem result?_map (f : α → β) (recorded : Recorded α) :
    (recorded.map f).result? = recorded.result?.map f := by
  unfold map result?
  cases recorded.outcome <;> rfl

/-- An event has no effect on the result. -/
@[simp] theorem result?_noting (event : Event) (recorded : Recorded α) :
    (recorded.noting event).result? = recorded.result? := rfl

end Recorded

/-- The events of reading lexemes: the inserted multiplications, and then every lexeme. -/
def Lexed.events (lexed : Lexed) : List Event :=
  (lexed.lexemes.filter Lexeme.implicit).map (fun lexeme ↦ .implicitMultiplication lexeme.offset) ++
    lexed.lexemes.map fun lexeme ↦ .lexeme lexeme.kind lexeme.offset lexeme.implicit

/-- Read the lexemes of a text, with the events. -/
def lexRecorded (mode : Mode) (text : List Char) : Recorded (List Lexeme) :=
  let lexed := lex mode text
  ⟨lexed.events, lexed.toExcept⟩

end Nabla.Formula
