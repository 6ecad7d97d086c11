import Mathlib.Data.List.Basic

/-!
# Online machines

A machine that takes its input one letter at a time cannot see how the input was cut. `feed` is
the run over a word; an invariant may speak of the whole history of letters.
-/

namespace LWebServer.Online

variable {σ α : Type*}

/-- The state after a word. -/
def feed (step : σ → α → σ) (start : σ) (word : List α) : σ := word.foldl step start

@[simp]
theorem feed_nil (step : σ → α → σ) (start : σ) : feed step start [] = start := rfl

@[simp]
theorem feed_cons (step : σ → α → σ) (start : σ) (letter : α) (word : List α) :
    feed step start (letter :: word) = feed step (step start letter) word := rfl

theorem feed_append (step : σ → α → σ) (start : σ) (first second : List α) :
    feed step start (first ++ second) = feed step (feed step start first) second :=
  List.foldl_append

/-- An invariant that mentions the history and survives one letter holds after every word. -/
theorem feed_history {step : σ → α → σ} {inv : List α → σ → Prop} {seen : List α} {start : σ}
    (hstart : inv seen start)
    (hstep : ∀ seen state letter, inv seen state → inv (seen ++ [letter]) (step state letter))
    (word : List α) : inv (seen ++ word) (feed step start word) := by
  induction word generalizing seen start with
  | nil => simpa using hstart
  | cons letter word ih =>
    have hnext := ih (hstep seen start letter hstart)
    simpa using hnext

/-- An invariant of single states holds after every word. -/
theorem feed_invariant {step : σ → α → σ} {inv : σ → Prop} {start : σ} (hstart : inv start)
    (hstep : ∀ state letter, inv state → inv (step state letter)) (word : List α) :
    inv (feed step start word) :=
  @feed_history σ α step (fun _ ↦ inv) [] start hstart (fun _ ↦ hstep) word

/-- A state that every letter leaves alone is left alone by every word. -/
theorem feed_fixed {step : σ → α → σ} {start : σ} (hfixed : ∀ letter, step start letter = start)
    (word : List α) : feed step start word = start :=
  @feed_invariant σ α step (· = start) start rfl (fun _ letter h ↦ h ▸ hfixed letter) word

/-- A machine that only collects what it reads: `collect acc` is the state after `acc`. -/
theorem feed_collect (step : σ → α → σ) (collect : List α → σ) (accepts : α → Prop)
    (word : List α) (hstep : ∀ acc letter, accepts letter →
      step (collect acc) letter = collect (acc ++ [letter])) (acc : List α)
    (hword : ∀ letter ∈ word, accepts letter) :
    feed step (collect acc) word = collect (acc ++ word) := by
  induction word generalizing acc with
  | nil => simp
  | cons letter word ih =>
    rw [feed_cons, hstep acc letter (hword letter List.mem_cons_self),
      ih _ fun l hl ↦ hword l (List.mem_cons_of_mem _ hl)]
    simp

/-- A change of state that commutes with one letter commutes with a word. -/
theorem feed_map {step : σ → α → σ} {change : σ → σ}
    (hcomm : ∀ state letter, step (change state) letter = change (step state letter))
    (start : σ) (word : List α) :
    feed step (change start) word = change (feed step start word) := by
  induction word generalizing start with
  | nil => rfl
  | cons letter word ih => rw [feed_cons, hcomm, ih, feed_cons]

end LWebServer.Online
