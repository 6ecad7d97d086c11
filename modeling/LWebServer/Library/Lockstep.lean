import Mathlib.Data.List.Basic
import Mathlib.Data.Option.Basic

/-!
# Systems in step

Two calls end together if both return the same value or both fail in the same way, and the states
that they leave are related. Two systems whose steps show the same and keep a relation cannot be
told apart by any run.
-/

namespace LWebServer.Lockstep

/-! ## Calls -/

section

variable {ε σ τ α β : Type} {rel rel' fail fail' : σ → τ → Prop} {s : σ} {t : τ}

/-- Two calls end together. The states are related by `rel` after a return, and by `fail` after a
failure. -/
inductive Together (rel fail : σ → τ → Prop) :
    EStateM.Result ε σ α → EStateM.Result ε τ α → Prop where
  | ok {s : σ} {t : τ} (a : α) (hrel : rel s t) : Together rel fail (.ok a s) (.ok a t)
  | error {s : σ} {t : τ} (e : ε) (hfail : fail s t) : Together rel fail (.error e s) (.error e t)

theorem Together.mono {r : EStateM.Result ε σ α} {r' : EStateM.Result ε τ α}
    (htogether : Together rel fail r r') (hrel : ∀ s t, rel s t → rel' s t)
    (hfail : ∀ s t, fail s t → fail' s t) : Together rel' fail' r r' := by
  cases htogether with
  | ok a h => exact .ok a (hrel _ _ h)
  | error e h => exact .error e (hfail _ _ h)

/-- Two sequences end together if their parts do. -/
theorem Together.bind {f : EStateM ε σ α} {f' : EStateM ε τ α} {g : α → EStateM ε σ β}
    {g' : α → EStateM ε τ β} (hfirst : Together rel fail (f s) (f' t))
    (hrest : ∀ a s t, rel s t → Together rel' fail (g a s) (g' a t)) :
    Together rel' fail ((f >>= g) s) ((f' >>= g') t) := by
  simp only [Bind.bind, EStateM.bind]
  generalize f s = r at hfirst
  generalize f' t = r' at hfirst
  cases hfirst with
  | ok a hrel => exact hrest a _ _ hrel
  | error e hfail => exact .error e hfail

end

/-! ## Runs -/

section

variable {ι ο σ τ : Type*} {rel : σ → τ → Prop}

/-- What a system shows while it takes some inputs. A step that leaves no state is the last one. -/
def trace (step : ι → σ → ο × Option σ) : List ι → σ → List ο
  | [], _ => []
  | input :: inputs, s =>
    (step input s).1 ::
      match (step input s).2 with
      | some s' => trace step inputs s'
      | none => []

theorem trace_cons {step : ι → σ → ο × Option σ} {input : ι} {s s' : σ} {shown : ο}
    (hstep : step input s = (shown, some s')) (inputs : List ι) :
    trace step (input :: inputs) s = shown :: trace step inputs s' := by
  rw [trace, hstep]

theorem trace_singleton (step : ι → σ → ο × Option σ) (input : ι) (s : σ) :
    trace step [input] s = [(step input s).1] := by
  rw [trace]
  cases (step input s).2 <;> rfl

/-- A step of two systems shows the same and keeps the relation. -/
def Alike (rel : σ → τ → Prop) (r : ο × Option σ) (r' : ο × Option τ) : Prop :=
  r.1 = r'.1 ∧ Option.Rel rel r.2 r'.2

/-- Related states show the same in every run. -/
theorem trace_eq {step : ι → σ → ο × Option σ} {step' : ι → τ → ο × Option τ}
    (hstep : ∀ input s t, rel s t → Alike rel (step input s) (step' input t)) (inputs : List ι)
    {s : σ} {t : τ} (hrel : rel s t) : trace step inputs s = trace step' inputs t := by
  induction inputs generalizing s t with
  | nil => rfl
  | cons input inputs ih =>
    obtain ⟨hshown, hnext⟩ := hstep input s t hrel
    unfold trace
    rw [hshown]
    generalize (step input s).2 = next at hnext
    generalize (step' input t).2 = next' at hnext
    cases hnext with
    | some hrel' => exact congrArg _ (ih hrel')
    | none => rfl

end

end LWebServer.Lockstep
