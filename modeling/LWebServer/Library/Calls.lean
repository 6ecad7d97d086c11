import Mathlib.Logic.Basic

/-!
# Calls that return or fail

A call takes a state and leaves another one, with a value or an error. A sequence of two calls
returns if both of them do, and fails where the first one of them does that fails.
-/

namespace LWebServer.Calls

universe u

variable {ε σ α β : Type u} {f : EStateM ε σ α} {g : α → EStateM ε σ β} {s s' : σ}

theorem bind_of_ok {a : α} (hf : f s = .ok a s') : (f >>= g) s = g a s' := by
  simp only [bind, EStateM.bind, hf]

theorem bind_of_error {e : ε} (hf : f s = .error e s') : (f >>= g) s = .error e s' := by
  simp only [bind, EStateM.bind, hf]

/-- A sequence that returns runs both parts. -/
theorem bind_eq_ok {b : β} :
    (f >>= g) s = .ok b s' ↔ ∃ a t, f s = .ok a t ∧ g a t = .ok b s' := by
  constructor
  · intro hbind
    cases hf : f s with
    | ok a t =>
      rw [bind_of_ok hf] at hbind
      exact ⟨a, t, rfl, hbind⟩
    | error e t =>
      rw [bind_of_error hf] at hbind
      cases hbind
  · rintro ⟨a, t, hf, hg⟩
    rw [bind_of_ok hf, hg]

/-- A sequence that fails does so in its first or in its second part. -/
theorem bind_eq_error {e : ε} :
    (f >>= g) s = .error e s' ↔
      f s = .error e s' ∨ ∃ a t, f s = .ok a t ∧ g a t = .error e s' := by
  constructor
  · intro hbind
    cases hf : f s with
    | ok a t =>
      rw [bind_of_ok hf] at hbind
      exact .inr ⟨a, t, rfl, hbind⟩
    | error e' t =>
      rw [bind_of_error hf] at hbind
      cases hbind
      exact .inl rfl
  · rintro (hf | ⟨a, t, hf, hg⟩)
    · exact bind_of_error hf
    · rw [bind_of_ok hf, hg]

end LWebServer.Calls
