/-!
# Outcomes of two stages

What is computed in two stages fails in one of them, and has a result only if both have one.
-/

namespace Nabla

variable {ε α β : Type} {failure : ε}

/-- A result of two stages is one of the second after a result of the first. -/
theorem exists_of_bind_eq_ok {first : Except ε α} {next : α → Except ε β} {result : β}
    (h : first >>= next = .ok result) : ∃ found, first = .ok found ∧ next found = .ok result := by
  cases first with
  | error failure => cases h
  | ok found => exact ⟨found, rfl, h⟩

/-- A failure of two stages is one of the first, or one of the second after a result of the first.
-/
theorem exists_of_bind_eq_error {first : Except ε α} {next : α → Except ε β}
    (h : first >>= next = .error failure) :
    first = .error failure ∨ ∃ found, first = .ok found ∧ next found = .error failure := by
  cases first with
  | error other =>
    cases h
    exact .inl rfl
  | ok found => exact .inr ⟨found, rfl, h⟩

/-- A changed result is one of the outcome. -/
theorem exists_of_map_eq_ok {f : α → β} {outcome : Except ε α} {result : β}
    (h : outcome.map f = .ok result) : ∃ found, outcome = .ok found ∧ f found = result := by
  cases outcome with
  | error failure => cases h
  | ok found =>
    cases h
    exact ⟨found, rfl, rfl⟩

/-- A failure with a changed result is one of the outcome. -/
theorem eq_error_of_map_eq_error {f : α → β} {outcome : Except ε α}
    (h : outcome.map f = .error failure) : outcome = .error failure := by
  cases outcome with
  | error other =>
    cases h
    rfl
  | ok found => cases h

end Nabla
