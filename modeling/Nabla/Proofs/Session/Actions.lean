import Nabla.Session.Basic

/-!
# How actions end

An action runs step by step (`run_bind`), and a failure does not take back what has been assigned
before it. So whether a session that fails is left as it was depends on the order of the steps.
`Ends` says that it is, and what session is reached otherwise. It holds of an action that assigns
once, behind everything that can fail: the steps before the assignment are checks (`Ends.check`),
and what follows it has a result (`Ends.assign`).
-/

namespace Nabla.Session

variable {α β : Type} {session : Session}

/-! ### Runs -/

/-- A result ends an action. -/
@[simp] theorem run_pure (session : Session) (result : α) :
    session.run (pure result) = (session, .ok result) := rfl

/-- A failure ends an action. -/
@[simp] theorem run_throw (session : Session) (failure : Failure) :
    session.run (throw failure : Action α) = (session, .error failure) := rfl

/-- An action may look at the session. -/
@[simp] theorem run_get (session : Session) : session.run get = (session, .ok session) := rfl

/-- An action may assign to the parts of the session. -/
@[simp] theorem run_modify (session : Session) (assign : Session → Session) :
    session.run (modify assign) = (assign session, .ok ()) := rfl

/-- What is found without the session has the same outcome in every session. -/
@[simp] theorem run_lift (session : Session) (outcome : Except Failure α) :
    session.run (liftM outcome) = (session, outcome) := rfl

/-- The second of two steps goes on in the session that the first one leaves. A failure of the first
one leaves that session too. -/
theorem run_bind (session : Session) (first : Action α) (next : α → Action β) :
    session.run (first >>= next) =
      match session.run first with
      | (reached, .ok found) => reached.run (next found)
      | (reached, .error failure) => (reached, .error failure) := by
  cases hfirst : first session with
  | mk outcome reached =>
    have hrun : session.run first = (reached, outcome) := congrArg Prod.swap hfirst
    have hstep : session.run (first >>= next) =
        Prod.swap (ExceptT.bindCont next outcome reached) :=
      congrArg (fun (outcome, reached) ↦ Prod.swap (ExceptT.bindCont next outcome reached)) hfirst
    rw [hrun, hstep]
    cases outcome with
    | ok found => rfl
    | error failure => rfl

example (session : Session) (failure : Failure) :
    session.run (do modify fun session ↦ { session with trace := true }; throw failure : Action α) =
      ({ session with trace := true }, .error failure) := rfl

/-! ### Actions that only look -/

/-- An action that leaves every session as it was, with a result and with a failure. -/
def Action.ReadsOnly (action : Action α) : Prop :=
  ∀ session : Session, (session.run action).1 = session

namespace Action.ReadsOnly

/-- A result changes nothing. -/
theorem pure (result : α) : ReadsOnly (Pure.pure result) := fun _ ↦ rfl

/-- A failure changes nothing. -/
theorem throw (failure : Failure) : ReadsOnly (MonadExcept.throw failure : Action α) := fun _ ↦ rfl

/-- Looking at the session changes nothing. -/
theorem get : ReadsOnly MonadState.get := fun _ ↦ rfl

/-- What is found without the session changes nothing. -/
theorem lift (outcome : Except Failure α) : ReadsOnly (liftM outcome) := fun _ ↦ rfl

/-- Two steps that change nothing. -/
theorem bind {first : Action α} {next : α → Action β} (hfirst : first.ReadsOnly)
    (hnext : ∀ found, (next found).ReadsOnly) : (first >>= next).ReadsOnly := by
  intro session
  have hreached := hfirst session
  rw [run_bind]
  cases hstep : session.run first with
  | mk reached outcome =>
    rw [hstep] at hreached
    cases outcome with
    | error failure => exact hreached
    | ok found => exact (hnext found reached).trans hreached

end Action.ReadsOnly

/-! ### Ends -/

/-- An action that has a result ends in a session with a property, and one that fails leaves the
session as it was. -/
structure Ends (session : Session) (action : Action α) (after : Session → Prop) : Prop where
  ok : ∀ result, (session.run action).2 = .ok result → after (session.run action).1
  error : ∀ failure, (session.run action).2 = .error failure → (session.run action).1 = session

namespace Ends

variable {after : Session → Prop}

/-- An action that changes nothing. -/
theorem of_readsOnly {action : Action α} (h : action.ReadsOnly) (hsession : after session) :
    session.Ends action after :=
  ⟨fun _ _ ↦ (h session).symm ▸ hsession, fun _ _ ↦ h session⟩

/-- A check comes before what else is done. -/
theorem check {first : Action α} {next : α → Action β} (hfirst : first.ReadsOnly)
    (hnext : ∀ found, (session.run first).2 = .ok found → session.Ends (next found) after) :
    session.Ends (first >>= next) after := by
  have hreached := hfirst session
  have hrun := run_bind session first next
  cases hstep : session.run first with
  | mk reached outcome =>
    rw [hstep] at hreached hrun
    -- the first step was a check, so the next one begins in the same session
    cases hreached
    cases outcome with
    | error failure =>
      constructor <;> rw [hrun]
      · exact fun _ h ↦ nomatch h
      · exact fun _ _ ↦ rfl
    | ok found =>
      obtain ⟨hok, herror⟩ := hnext found (by rw [hstep])
      constructor <;> rw [hrun]
      · exact hok
      · exact herror

/-- An assignment is the last thing that is done before the result. -/
theorem assign {change : Session → Session} {next : Action α} (hchanged : after (change session))
    (hnext : ∀ reached : Session, ∃ result, reached.run next = (reached, .ok result)) :
    session.Ends (do modify change; next) after := by
  obtain ⟨result, hresult⟩ := hnext (change session)
  have hrun : session.run (do modify change; next) = (change session, .ok result) := by
    rw [run_bind, run_modify]
    exact hresult
  constructor <;> rw [hrun]
  · exact fun _ _ ↦ hchanged
  · exact fun _ h ↦ nomatch h

end Ends

end Nabla.Session
