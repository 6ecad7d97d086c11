import Mathlib.Data.List.Induction
import Mathlib.Data.List.Infix

/-!
# Schedules

Parties that share a state take one step at a time. A schedule says whose step comes next, and a
run of it is defined if each of these steps can be taken where its turn comes. What holds at every
state of a run, and what holds at every step of it, speaks of the beginnings of the schedule.
-/

namespace LWebServer.Schedule

variable {ι σ : Type*}

/-- The state after the steps of a schedule, if each of them can be taken. -/
def run (step : ι → σ → Option σ) : List ι → σ → Option σ
  | [], s => some s
  | i :: rest, s => (step i s).bind (run step rest)

/-- Every state of a run. -/
def Along (step : ι → σ → Option σ) (start : σ) (p : σ → Prop) (schedule : List ι) : Prop :=
  ∀ past s, past <+: schedule → run step past start = some s → p s

/-- Every step of a run, with the state in which it is taken. -/
def Meets (step : ι → σ → Option σ) (start : σ) (q : ι → σ → Prop) (schedule : List ι) : Prop :=
  ∀ past i s, past ++ [i] <+: schedule → run step past start = some s → q i s

/-- At some state of a run something was the case, and at every state from this one on something
else is. -/
def Since (step : ι → σ → Option σ) (start : σ) (event holding : σ → Prop)
    (schedule : List ι) : Prop :=
  ∃ before during r, schedule = before ++ during ∧ run step before start = some r ∧ event r ∧
    Along step r holding during

variable {step : ι → σ → Option σ} {start s t : σ} {schedule : List ι}

@[simp]
theorem run_nil : run step [] s = some s := rfl

theorem run_append (first second : List ι) (s : σ) :
    run step (first ++ second) s = (run step first s).bind (run step second) := by
  induction first generalizing s with
  | nil => rfl
  | cons i first ih =>
    simp only [List.cons_append, run, Option.bind_assoc]
    congr 1
    funext s'
    exact ih s'

theorem run_append_of_run {first : List ι} (hfirst : run step first start = some s)
    (second : List ι) : run step (first ++ second) start = run step second s := by
  rw [run_append, hfirst, Option.bind_some]

theorem run_snoc {past : List ι} {i : ι} :
    run step (past ++ [i]) start = some t ↔
      ∃ s, run step past start = some s ∧ step i s = some t := by
  rw [run_append, Option.bind_eq_some_iff]
  simp [run]

/-- What the history of a run has led to, step by step. -/
theorem history {inv : List ι → σ → Prop} (hstart : inv [] start)
    (hstep : ∀ past i s s', run step past start = some s → inv past s → step i s = some s' →
      inv (past ++ [i]) s')
    (hrun : run step schedule start = some s) : inv schedule s := by
  induction schedule using List.reverseRecOn generalizing s with
  | nil =>
    cases hrun
    exact hstart
  | append_singleton past i ih =>
    obtain ⟨r, hpast, hlast⟩ := run_snoc.mp hrun
    exact hstep past i r s hpast (ih hpast) hlast

/-- What holds at the start and outlives every step holds after every run. -/
theorem invariant {inv : σ → Prop} (hstart : inv start)
    (hstep : ∀ i s s', inv s → step i s = some s' → inv s')
    (hrun : run step schedule start = some s) : inv s :=
  history hstart (fun _ i s s' _ ↦ hstep i s s') hrun

theorem Along.of_prefix {p : σ → Prop} {past : List ι} (halong : Along step start p schedule)
    (hpast : past <+: schedule) : Along step start p past :=
  fun earlier s hearlier ↦ halong earlier s (hearlier.trans hpast)

theorem Along.imp {p p' : σ → Prop} (hp : ∀ s, p s → p' s)
    (halong : Along step start p schedule) : Along step start p' schedule :=
  fun past s hpast hrun ↦ hp s (halong past s hpast hrun)

theorem Along.last {p : σ → Prop} (halong : Along step start p schedule)
    (hrun : run step schedule start = some s) : p s :=
  halong schedule s (List.prefix_refl schedule) hrun

theorem Meets.of_prefix {q : ι → σ → Prop} {past : List ι} (hmeets : Meets step start q schedule)
    (hpast : past <+: schedule) : Meets step start q past :=
  fun earlier i s hearlier ↦ hmeets earlier i s (hearlier.trans hpast)

theorem Meets.after {q : ι → σ → Prop} {first second : List ι}
    (hmeets : Meets step start q (first ++ second)) (hfirst : run step first start = some s) :
    Meets step s q second := by
  intro past i t hpast hrun
  apply hmeets (first ++ past) i t
  · rw [List.append_assoc]
    exact (List.prefix_append_right_inj first).mpr hpast
  · rw [run_append_of_run hfirst]
    exact hrun

theorem Meets.imp {q q' : ι → σ → Prop} (hq : ∀ i s, q i s → q' i s)
    (hmeets : Meets step start q schedule) : Meets step start q' schedule :=
  fun past i s hpast hrun ↦ hq i s (hmeets past i s hpast hrun)

theorem Meets.last {q : ι → σ → Prop} {past : List ι} {i : ι}
    (hmeets : Meets step start q (past ++ [i])) (hrun : run step past start = some s) : q i s :=
  hmeets past i s (List.prefix_refl _) hrun

theorem Meets.and {q q' : ι → σ → Prop} (hmeets : Meets step start q schedule)
    (hmeets' : Meets step start q' schedule) :
    Meets step start (fun i s ↦ q i s ∧ q' i s) schedule :=
  fun past i s hpast hrun ↦ ⟨hmeets past i s hpast hrun, hmeets' past i s hpast hrun⟩

/-- What is so at every state is so at every step. -/
theorem Along.meets {p : σ → Prop} (halong : Along step start p schedule) :
    Meets step start (fun _ s ↦ p s) schedule :=
  fun past i s hpast hrun ↦ halong past s ((List.prefix_append past [i]).trans hpast) hrun

/-- What is so of the names in a schedule is so at every step. -/
theorem meets_of_mem {p : ι → Prop} (hall : ∀ i ∈ schedule, p i) :
    Meets step start (fun i _ ↦ p i) schedule :=
  fun past i _ hpast _ ↦
    hall i (hpast.subset (List.mem_append_right past List.mem_cons_self))

@[simp]
theorem meets_nil (q : ι → σ → Prop) : Meets step start q [] := by
  intro past i s hpast
  exact absurd (List.prefix_nil.mp hpast) (List.append_ne_nil_of_right_ne_nil past (by simp))

/-- The first step of a run, and the others. -/
theorem meets_cons {i : ι} {q : ι → σ → Prop} (hfirst : q i start)
    (hrest : ∀ s, step i start = some s → Meets step s q schedule) :
    Meets step start q (i :: schedule) := by
  intro past j t hinit hrun
  cases past with
  | nil =>
    obtain ⟨rfl, -⟩ := List.cons_prefix_cons.mp hinit
    cases hrun
    exact hfirst
  | cons k past =>
    obtain ⟨rfl, hpast⟩ := List.cons_prefix_cons.mp hinit
    obtain ⟨s, hs, hrun'⟩ := Option.bind_eq_some_iff.mp hrun
    exact hrest s hs past j t hpast hrun'

theorem along_nil {p : σ → Prop} (hstart : p start) : Along step start p [] := by
  intro past s hpast hrun
  rw [List.prefix_nil.mp hpast] at hrun
  cases hrun
  exact hstart

/-- The first state of a run, and the others. -/
theorem along_cons {i : ι} {p : σ → Prop} (hstart : p start)
    (hrest : ∀ s, step i start = some s → Along step s p schedule) :
    Along step start p (i :: schedule) := by
  intro past t hinit hrun
  cases past with
  | nil =>
    cases hrun
    exact hstart
  | cons j past =>
    obtain ⟨rfl, hpast⟩ := List.cons_prefix_cons.mp hinit
    obtain ⟨s, hs, hrun'⟩ := Option.bind_eq_some_iff.mp hrun
    exact hrest s hs past t hpast hrun'

/-- What holds at the start and outlives every step of one kind holds along every run of such
steps. -/
theorem along_of_meets {inv : σ → Prop} {q : ι → σ → Prop} (hstart : inv start)
    (hstep : ∀ i s s', q i s → inv s → step i s = some s' → inv s')
    (hmeets : Meets step start q schedule) : Along step start inv schedule := by
  intro past
  induction past using List.reverseRecOn with
  | nil =>
    intro s _ hrun
    cases hrun
    exact hstart
  | append_singleton past i ih =>
    intro s hinit hrun
    obtain ⟨r, hpast, hlast⟩ := run_snoc.mp hrun
    have hinv : inv r := ih r ((List.prefix_append past [i]).trans hinit) hpast
    exact hstep i r s (hmeets past i r hinit hpast) hinv hlast

theorem along_of_invariant {inv : σ → Prop} (hstart : inv start)
    (hstep : ∀ i s s', inv s → step i s = some s' → inv s') (schedule : List ι) :
    Along step start inv schedule :=
  fun _ _ _ hrun ↦ invariant hstart hstep hrun

/-- A step between two states with a property was of a kind, if a step of no other kind leads from
a state with it to another one. -/
theorem meets_of_along {p : σ → Prop} {q : ι → σ → Prop}
    (hstep : ∀ i s s', p s → step i s = some s' → p s' → q i s)
    (hrun : run step schedule start = some t) (halong : Along step start p schedule) :
    Meets step start q schedule := by
  rintro past i s hinit hpast
  obtain ⟨rest, hschedule⟩ := hinit
  rw [← hschedule, List.append_assoc, run_append_of_run hpast] at hrun
  obtain ⟨s', hs', -⟩ := Option.bind_eq_some_iff.mp hrun
  have hreached : run step (past ++ [i]) start = some s' := run_snoc.mpr ⟨s, hpast, hs'⟩
  have hnext : past ++ [i] <+: schedule := ⟨rest, hschedule⟩
  have hbefore : p s := halong past s ((List.prefix_append past [i]).trans hnext) hpast
  exact hstep i s s' hbefore hs' (halong (past ++ [i]) s' hnext hreached)

/-- Where the steps of a kind keep an invariant, and every other step is taken and leads to a state
without a property, all states of a run have the property exactly if all its steps are of the
kind. -/
theorem along_iff_meets {inv p : σ → Prop} {q : ι → σ → Prop} (hstart : inv start)
    (himp : ∀ s, inv s → p s)
    (hgood : ∀ i s s', q i s → inv s → step i s = some s' → inv s')
    (hbad : ∀ i s, inv s → ¬ q i s → ∃ s', step i s = some s' ∧ ¬ p s') :
    Along step start p schedule ↔ Meets step start q schedule := by
  refine ⟨fun halong ↦ ?_, fun hmeets ↦ (along_of_meets hstart hgood hmeets).imp himp⟩
  have hkind {past : List ι} {i : ι} {s : σ} (hnext : past ++ [i] <+: schedule)
      (hrun : run step past start = some s) (hinv : inv s) : q i s := by
    by_contra hnot
    obtain ⟨s', hs', hp⟩ := hbad i s hinv hnot
    exact hp (halong (past ++ [i]) s' hnext (run_snoc.mpr ⟨s, hrun, hs'⟩))
  have hinv : Along step start inv schedule := by
    intro past
    induction past using List.reverseRecOn with
    | nil =>
      intro s _ hrun
      cases hrun
      exact hstart
    | append_singleton past i ih =>
      intro s hnext hrun
      obtain ⟨r, hpast, hlast⟩ := run_snoc.mp hrun
      have hr : inv r := ih r ((List.prefix_append past [i]).trans hnext) hpast
      exact hgood i r s (hkind hnext hpast hr) hr hlast
  exact fun past i s hnext hrun ↦
    hkind hnext hrun (hinv past s ((List.prefix_append past [i]).trans hnext) hrun)

/-- What is noted down at the steps of a run. -/
def notes {α : Type*} (step : ι → σ → Option σ) (note : ι → σ → List α) : List ι → σ → List α
  | [], _ => []
  | i :: rest, s => note i s ++ (step i s).elim [] (notes step note rest)

theorem notes_snoc {α : Type*} {note : ι → σ → List α} {past : List ι} {i : ι}
    (hrun : run step past start = some s) :
    notes step note (past ++ [i]) start = notes step note past start ++ note i s := by
  induction past generalizing start with
  | nil =>
    cases hrun
    rw [List.nil_append]
    unfold notes
    cases step i s <;> simp [notes]
  | cons first past ih =>
    obtain ⟨t, hfirst, hrest⟩ := Option.bind_eq_some_iff.mp hrun
    simp only [List.cons_append, notes, hfirst, Option.elim_some, ih hrest, List.append_assoc]

variable {event holding : σ → Prop}

theorem since_of_now (hrun : run step schedule start = some s) (hevent : event s)
    (hholding : holding s) : Since step start event holding schedule := by
  exact ⟨schedule, [], s, (List.append_nil schedule).symm, hrun, hevent, along_nil hholding⟩

theorem Since.snoc {i : ι} (hsince : Since step start event holding schedule)
    (hnext : ∀ s, run step (schedule ++ [i]) start = some s → holding s) :
    Since step start event holding (schedule ++ [i]) := by
  obtain ⟨before, during, r, rfl, hbefore, hevent, halong⟩ := hsince
  refine ⟨before, during ++ [i], r, List.append_assoc before during [i], hbefore, hevent, ?_⟩
  intro past s hpast hrun
  rcases List.prefix_concat_iff.mp hpast with rfl | hearlier
  · apply hnext
    rw [List.append_assoc, run_append_of_run hbefore]
    exact hrun
  · exact halong past s hearlier hrun

end LWebServer.Schedule
