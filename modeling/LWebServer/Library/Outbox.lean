import Mathlib.Data.List.Basic

/-!
# Outboxes

Chunks wait in line and are sent from the front, part by part. What has been sent is at all times
a prefix of everything that was ever put in line.
-/

namespace LWebServer

variable {α : Type*}

/-- The items sent so far and the chunks in line, without their sent parts. -/
structure Outbox (α : Type*) where
  sent : List α
  pending : List (List α)

namespace Outbox

def empty : Outbox α := ⟨[], []⟩

/-- Everything put in line so far. -/
def total (b : Outbox α) : List α := b.sent ++ b.pending.flatten

def push (chunk : List α) (b : Outbox α) : Outbox α := ⟨b.sent, b.pending ++ [chunk]⟩

/-- Send some items of the first chunk. -/
def advance (count : ℕ) : Outbox α → Outbox α
  | ⟨sent, []⟩ => ⟨sent, []⟩
  | ⟨sent, chunk :: pending⟩ => ⟨sent ++ chunk.take count, chunk.drop count :: pending⟩

/-- Remove the first chunk. -/
def retire (b : Outbox α) : Outbox α := ⟨b.sent, b.pending.tail⟩

@[simp]
theorem total_empty : (empty : Outbox α).total = [] := rfl

theorem total_push (chunk : List α) (b : Outbox α) : (b.push chunk).total = b.total ++ chunk := by
  simp [total, push]

theorem total_advance (count : ℕ) (b : Outbox α) : (b.advance count).total = b.total := by
  obtain ⟨sent, pending⟩ := b
  cases pending with
  | nil => rfl
  | cons chunk pending =>
    simp only [advance, total, List.flatten_cons, List.append_assoc]
    rw [← List.append_assoc (chunk.take count), List.take_append_drop]

/-- A chunk sent in full may be removed. -/
theorem total_retire {b : Outbox α} (hdone : b.pending.head? = some []) :
    b.retire.total = b.total := by
  obtain ⟨sent, pending⟩ := b
  cases pending with
  | nil => simp at hdone
  | cons chunk pending =>
    obtain rfl : chunk = [] := by simpa using hdone
    simp [retire, total]

theorem sent_prefix_total (b : Outbox α) : b.sent <+: b.total := List.prefix_append _ _

end Outbox

end LWebServer
