import Mathlib.Logic.Function.Basic
import Mathlib.Logic.ExistsUnique

/-!
# Custody

Tokens come into being, are passed from one place to another and are disposed of. A location says
where each token lies; what there is and what each place holds are read off it, so no token is lost
and none is held at two places.
-/

namespace LWebServer.Custody

variable {τ π : Type*}

/-- `there` are the tokens that there are, and `holds` says what each place holds. -/
structure Located (there : τ → Prop) (holds : π → τ → Prop) (loc : τ → Option π) : Prop where
  there : ∀ t, there t ↔ (loc t).isSome
  holds : ∀ p t, holds p t ↔ loc t = some p

namespace Located

variable {there there' : τ → Prop} {holds holds' : π → τ → Prop} {loc : τ → Option π}
  {p q : π} {t : τ}

/-- A place holds only what there is. -/
theorem there_of_holds (hlocated : Located there holds loc) (hheld : holds p t) : there t := by
  rw [hlocated.there, (hlocated.holds p t).mp hheld]
  rfl

theorem eq_of_holds (hlocated : Located there holds loc) (hp : holds p t) (hq : holds q t) :
    p = q := by
  rw [hlocated.holds] at hp hq
  exact Option.some.inj (hp.symm.trans hq)

/-- What there is lies at exactly one place. -/
theorem existsUnique (hlocated : Located there holds loc) (ht : there t) : ∃! p, holds p t := by
  obtain ⟨p, hp⟩ := Option.isSome_iff_exists.mp ((hlocated.there t).mp ht)
  have hheld : holds p t := (hlocated.holds p t).mpr hp
  exact ⟨p, hheld, fun q hq ↦ hlocated.eq_of_holds hq hheld⟩

theorem not_holds (hlocated : Located there holds loc) (ht : ¬ there t) (p : π) : ¬ holds p t :=
  fun hheld ↦ ht (hlocated.there_of_holds hheld)

/-- One token comes to another place, or comes into being, or is disposed of. -/
theorem move [DecidableEq τ] (hlocated : Located there holds loc) (a : τ) (place : Option π)
    (hthere : there' a ↔ place.isSome) (hholds : ∀ p, holds' p a ↔ place = some p)
    (hother : ∀ t ≠ a, (there' t ↔ there t) ∧ ∀ p, holds' p t ↔ holds p t) :
    Located there' holds' (Function.update loc a place) := by
  constructor
  · intro t
    by_cases ht : t = a
    · rw [ht, Function.update_self]
      exact hthere
    · rw [Function.update_of_ne ht, (hother t ht).1]
      exact hlocated.there t
  · intro p t
    by_cases ht : t = a
    · rw [ht, Function.update_self]
      exact hholds p
    · rw [Function.update_of_ne ht, (hother t ht).2 p]
      exact hlocated.holds p t

/-- Everything stays where it is. -/
theorem stay (hlocated : Located there holds loc) (hthere : ∀ t, there' t ↔ there t)
    (hholds : ∀ p t, holds' p t ↔ holds p t) : Located there' holds' loc where
  there t := (hthere t).trans (hlocated.there t)
  holds p t := (hholds p t).trans (hlocated.holds p t)

end Located

end LWebServer.Custody
