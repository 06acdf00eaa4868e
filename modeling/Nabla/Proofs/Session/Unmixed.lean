import Nabla.Proofs.Expr.Symbols
import Nabla.Proofs.Formula.AllowedSymbols
import Nabla.Proofs.Session.Transition
import Nabla.Session.Script

/-!
# The curve parameter and the coordinates stay apart

An expression of the parameter `t` and one of the coordinates share the first number of a point. The
current expression of a session never has symbols of both kinds: the mode keeps them apart when an
expression is read, whichever reader reads it, and differentiation and simplification bring in no
symbol. The mode may change while the expression stays, so the invariant is about the expression
alone (`Expr.Unmixed`).
-/

namespace Nabla

namespace Expr

/-- No symbol but the curve parameter, or no symbol but the coordinates. -/
def Unmixed (e : Expr) : Prop :=
  (∀ name, e.contains name = true → name = .t) ∨ (∀ name, e.contains name = true → name ≠ .t)

/-- An expression with no other symbols is unmixed as well. -/
theorem Unmixed.mono {e other : Expr} (h : e.Unmixed)
    (hcontains : ∀ name, other.contains name = true → e.contains name = true) : other.Unmixed :=
  h.imp (fun honly name hname ↦ honly name (hcontains name hname))
    (fun honly name hname ↦ honly name (hcontains name hname))

/-- Any values of the symbols of an unmixed expression are those of some point. -/
theorem Unmixed.exists_point {e : Expr} (h : e.Unmixed) (values : Symbol → Float32) :
    ∃ point : Point, ∀ name, e.contains name = true → point.value name = values name := by
  rcases h with honly | honly
  · refine ⟨⟨values .t, 0, 0⟩, fun name hname ↦ ?_⟩
    obtain rfl := honly name hname
    rfl
  · refine ⟨⟨values .x, values .y, values .z⟩, fun name hname ↦ ?_⟩
    cases name with
    | t => exact absurd rfl (honly .t hname)
    | x | y | z => rfl

/-- The symbols of one mode are not mixed. -/
theorem unmixed_of_allows {mode : Mode} {e : Expr}
    (h : ∀ name, e.contains name = true → mode.allows name = true) : e.Unmixed := by
  cases mode with
  | constant => exact .inl fun name hname ↦ by cases h name hname
  | singleVariable => exact .inl fun name hname ↦ beq_iff_eq.1 (h name hname)
  | multiVariable => exact .inr fun name hname ↦ bne_iff_ne.1 (h name hname)

end Expr

namespace Session

/-- The current expression, if there is one, is unmixed. -/
def Unmixed (session : Session) : Prop := ∀ e, session.current = some e → e.Unmixed

/-- No line makes the current expression mixed. -/
theorem Transition.unmixed {session next : Session} {line : List Char}
    (hstep : Transition session line next) (h : session.Unmixed) : next.Unmixed := by
  intro e hcurrent
  cases hstep with
  | read hline hread =>
    cases hcurrent
    exact Expr.unmixed_of_allows fun name hname ↦ Formula.allows_of_parse hread hname
  | diff hcommand hbefore name =>
    cases hcurrent
    refine (h _ hbefore).mono fun other hother ↦ ?_
    exact Expr.contains_of_derivative (Expr.contains_of_simplify hother)
  | simplify hcommand hbefore =>
    cases hcurrent
    exact (h _ hbefore).mono fun other hother ↦ Expr.contains_of_simplify hother
  | mode | reader | trace | unchanged => exact h e hcurrent

/-- No run of lines makes the current expression mixed. -/
theorem unmixed_runLines {session : Session} (h : session.Unmixed) (lines : List (List Char)) :
    (session.runLines lines).1.Unmixed := by
  induction lines generalizing session with
  | nil => exact h
  | cons line rest ih => exact ih ((transition_execute session line).unmixed h)

/-- Whatever lines are run in a new session, its current expression has no symbol but `t` or no
symbol but `x`, `y` and `z`. So any values of its symbols are those of a point, although `t` and `x`
read the same number of it. -/
theorem current_unmixed {lines : List (List Char)} {e : Expr}
    (h : (initial.runLines lines).1.current = some e) :
    e.Unmixed ∧ ∀ values : Symbol → Float32, ∃ point : Expr.Point,
      ∀ name, e.contains name = true → point.value name = values name := by
  have hinitial : initial.Unmixed := fun e hcurrent ↦ by cases hcurrent
  have hunmixed : e.Unmixed := unmixed_runLines hinitial lines e h
  exact ⟨hunmixed, hunmixed.exists_point⟩

/-- An expression of the parameter is differentiated after the mode has changed to the
coordinates and one of these lines has failed. -/
def changedModeLines : List (List Char) :=
  [":mode single".toList, ":parser direct".toList, "t * t".toList, ":mode multi".toList,
    "x + t".toList, ":diff t".toList]

/-- The derivative is that of `t * t`, and unmixed. -/
theorem current_unmixed_changed_mode :
    (initial.runLines changedModeLines).1.current = some (.add (.symbol .t) (.symbol .t)) ∧
      (Expr.add (.symbol .t) (.symbol .t)).Unmixed := by
  have hcurrent : (initial.runLines changedModeLines).1.current =
      some (.add (.symbol .t) (.symbol .t)) := by decide +kernel
  exact ⟨hcurrent, (current_unmixed hcurrent).1⟩

end Session

end Nabla
