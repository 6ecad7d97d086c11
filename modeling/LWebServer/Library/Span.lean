import Mathlib.Data.List.Basic

/-!
# Splitting a word

A run of letters of one class that is ended by a letter outside the class can be read off the word
in one way only. `lastFrom` cuts a word at the last occurrence of a letter.
-/

namespace LWebServer.Span

variable {α : Type*}

theorem append_cons_inj (p : α → Bool) {xs ys rest rest' : List α} {c d : α}
    (hxs : ∀ x ∈ xs, p x = true) (hys : ∀ y ∈ ys, p y = true) (hc : p c = false)
    (hd : p d = false) (heq : xs ++ c :: rest = ys ++ d :: rest') :
    xs = ys ∧ c = d ∧ rest = rest' := by
  induction xs generalizing ys with
  | nil =>
    cases ys with
    | nil => simpa using heq
    | cons y ys =>
      have hcy : c = y := by
        simp only [List.nil_append, List.cons_append, List.cons.injEq] at heq
        exact heq.1
      rw [hcy, hys y List.mem_cons_self] at hc
      exact absurd hc (by decide)
  | cons x xs ih =>
    cases ys with
    | nil =>
      have hdx : x = d := by
        simp only [List.nil_append, List.cons_append, List.cons.injEq] at heq
        exact heq.1
      rw [← hdx, hxs x List.mem_cons_self] at hd
      exact absurd hd (by decide)
    | cons y ys =>
      simp only [List.cons_append, List.cons.injEq] at heq
      obtain ⟨hxy, htail, hcd, hrest⟩ := And.intro heq.1
        (ih (fun x hx ↦ hxs x (List.mem_cons_of_mem _ hx))
          (fun y hy ↦ hys y (List.mem_cons_of_mem _ hy)) heq.2)
      exact ⟨by rw [hxy, htail], hcd, hrest⟩

/-! ## The last occurrence of a letter -/

variable [DecidableEq α]

/-- What begins with the last occurrence of a letter. -/
def lastFrom (c : α) : List α → Option (List α)
  | [] => none
  | x :: xs =>
    match lastFrom c xs with
    | some suffix => some suffix
    | none => if x = c then some (x :: xs) else none

theorem lastFrom_eq_none {c : α} {xs : List α} : lastFrom c xs = none ↔ c ∉ xs := by
  induction xs with
  | nil => simp [lastFrom]
  | cons x xs ih =>
    rw [lastFrom, List.mem_cons, not_or, ← ih, @eq_comm _ c]
    cases lastFrom c xs with
    | none => simp
    | some suffix => simp

theorem mem_of_lastFrom {c : α} {xs suffix : List α} (hlast : lastFrom c xs = some suffix) :
    c ∈ xs := by
  by_contra hnot
  rw [lastFrom_eq_none.mpr hnot] at hlast
  cases hlast

theorem lastFrom_append (c : α) (xs ys : List α) : lastFrom c (xs ++ ys) =
    match lastFrom c ys with
    | some suffix => some suffix
    | none => (lastFrom c xs).map (· ++ ys) := by
  induction xs with
  | nil =>
    rw [List.nil_append]
    cases lastFrom c ys <;> rfl
  | cons x xs ih =>
    rw [List.cons_append, lastFrom, ih, lastFrom]
    cases lastFrom c ys with
    | some suffix => rfl
    | none =>
      cases lastFrom c xs with
      | some suffix => rfl
      | none =>
        dsimp only [Option.map_none]
        split <;> rfl

theorem lastFrom_of_append_some {c : α} {ys suffix : List α} (xs : List α)
    (hlast : lastFrom c ys = some suffix) : lastFrom c (xs ++ ys) = some suffix := by
  rw [lastFrom_append, hlast]

theorem lastFrom_of_append_none {c : α} {ys : List α} (xs : List α)
    (hlast : lastFrom c ys = none) :
    lastFrom c (xs ++ ys) = (lastFrom c xs).map (· ++ ys) := by
  rw [lastFrom_append, hlast]

end LWebServer.Span
