import LWebServer.Library.Halving
import LWebServer.Library.Schedule
import LWebServer.Tool.LoadBalance
import LWebServer.Tool.Weights

/-!
# Totals that are halved

`Resize` adds an item to the totals of its thread. Where the sum would not fit, all totals are
halved before it is taken: those of the connections and those of the throughput each for itself.
-/

namespace LWebServer.LoadBalance

open Schedule

variable {n : ℕ} {b : LoadBalance n} {item : ThreadLoadData} {thread i j : Fin n}

/-- `PerThreadConnectNumber` before the addition in `Resize`. -/
def scaledConnects (item : ThreadLoadData) (thread : Fin n) (b : LoadBalance n) : Fin n → UInt16 :=
  if 0xffff - item.connectionNumber.toNat < (b.perThreadConnectNumber thread).toNat then
    fun i ↦ b.perThreadConnectNumber i / 2
  else b.perThreadConnectNumber

/-- `PerThreadThroughput` before the addition in `Resize`. -/
def scaledThroughputs (item : ThreadLoadData) (thread : Fin n) (b : LoadBalance n) :
    Fin n → UInt32 :=
  if 0xffffffff - item.throughput < b.perThreadThroughput thread then
    fun i ↦ b.perThreadThroughput i / 2
  else b.perThreadThroughput

theorem perThreadConnectNumber_resize (item : ThreadLoadData) (thread : Fin n)
    (b : LoadBalance n) : (b.resize item thread).perThreadConnectNumber =
      Function.update (b.scaledConnects item thread) thread
        (b.scaledConnects item thread thread + item.connectionNumber) := rfl

theorem perThreadThroughput_resize (item : ThreadLoadData) (thread : Fin n)
    (b : LoadBalance n) : (b.resize item thread).perThreadThroughput =
      Function.update (b.scaledThroughputs item thread) thread
        (b.scaledThroughputs item thread thread + item.throughput) := rfl

/-! ## Both vectors as counters -/

/-- The totals of the connections, as numbers. -/
def connects (b : LoadBalance n) : Fin n → ℕ := fun i ↦ (b.perThreadConnectNumber i).toNat

/-- The totals of the throughput, as numbers. -/
def throughputs (b : LoadBalance n) : Fin n → ℕ := fun i ↦ (b.perThreadThroughput i).toNat

theorem connects_le (b : LoadBalance n) (i : Fin n) : b.connects i ≤ 0xffff :=
  Nat.le_of_lt_succ (UInt16.toNat_lt _)

theorem throughputs_le (b : LoadBalance n) (i : Fin n) : b.throughputs i ≤ 0xffffffff :=
  Nat.le_of_lt_succ (UInt32.toNat_lt _)

theorem toNat_scaledConnects (item : ThreadLoadData) (thread i : Fin n) (b : LoadBalance n) :
    (b.scaledConnects item thread i).toNat =
      Halving.scaled 0xffff item.connectionNumber.toNat thread b.connects i := by
  unfold scaledConnects Halving.scaled connects
  split_ifs
  · exact UInt16.toNat_div _ _
  · rfl

theorem toNat_scaledThroughputs (item : ThreadLoadData) (thread i : Fin n) (b : LoadBalance n) :
    (b.scaledThroughputs item thread i).toNat =
      Halving.scaled 0xffffffff item.throughput.toNat thread b.throughputs i := by
  have hroom : item.throughput ≤ 0xffffffff := Nat.le_of_lt_succ (UInt32.toNat_lt _)
  have hfull : 0xffffffff - item.throughput < b.perThreadThroughput thread ↔
      0xffffffff - item.throughput.toNat < b.throughputs thread := by
    rw [UInt32.lt_iff_toNat_lt, UInt32.toNat_sub_of_le _ _ hroom]
    rfl
  unfold scaledThroughputs Halving.scaled
  rw [if_congr hfull rfl rfl]
  split_ifs
  · exact UInt32.toNat_div _ _
  · rfl

/-! ## One call -/

/-- An item of one of the threads, of which neither part is above half of what a total holds. -/
structure Reported (n : ℕ) (item : ThreadLoadData) : Prop where
  thread : item.threadId.toNat < n
  throughput : item.throughput.toNat ≤ 0x80000000
  connects : item.connectionNumber.toNat ≤ 0x8000

/-- Neither addition of the call exceeds `UINT_MAX` or `USHRT_MAX`. -/
structure NeverWraps (item : ThreadLoadData) (thread : Fin n) (b : LoadBalance n) : Prop where
  throughput : (b.scaledThroughputs item thread thread).toNat + item.throughput.toNat ≤ 0xffffffff
  connects : (b.scaledConnects item thread thread).toNat + item.connectionNumber.toNat ≤ 0xffff

/-- The call leaves the totals of the other threads in their order, but for ties. -/
structure KeepsOrder (item : ThreadLoadData) (thread : Fin n) (b : LoadBalance n) : Prop where
  throughput : ∀ i j, i ≠ thread → j ≠ thread → b.throughputs i ≤ b.throughputs j →
    (b.resize item thread).throughputs i ≤ (b.resize item thread).throughputs j
  connects : ∀ i j, i ≠ thread → j ≠ thread → b.connects i ≤ b.connects j →
    (b.resize item thread).connects i ≤ (b.resize item thread).connects j

theorem Reported.neverWraps (hitem : Reported n item) (thread : Fin n) (b : LoadBalance n) :
    NeverWraps item thread b where
  throughput := by
    rw [toNat_scaledThroughputs]
    exact Halving.scaled_add_le (b.throughputs_le thread) hitem.throughput
  connects := by
    rw [toNat_scaledConnects]
    exact Halving.scaled_add_le (b.connects_le thread) hitem.connects

theorem NeverWraps.throughputs_resize (hwraps : NeverWraps item thread b) :
    (b.resize item thread).throughputs =
      Halving.add 0xffffffff item.throughput.toNat thread b.throughputs := by
  funext i
  unfold throughputs
  rw [perThreadThroughput_resize]
  by_cases hi : i = thread
  · have hlt := Nat.lt_succ_of_le hwraps.throughput
    rw [hi, Function.update_self, UInt32.toNat_add, Nat.mod_eq_of_lt hlt,
      toNat_scaledThroughputs, Halving.add_self]
    rfl
  · rw [Function.update_of_ne hi, toNat_scaledThroughputs, Halving.add_of_ne hi]
    rfl

theorem NeverWraps.connects_resize (hwraps : NeverWraps item thread b) :
    (b.resize item thread).connects =
      Halving.add 0xffff item.connectionNumber.toNat thread b.connects := by
  funext i
  unfold LoadBalance.connects
  rw [perThreadConnectNumber_resize]
  by_cases hi : i = thread
  · have hlt := Nat.lt_succ_of_le hwraps.connects
    rw [hi, Function.update_self, UInt16.toNat_add, Nat.mod_eq_of_lt hlt,
      toNat_scaledConnects, Halving.add_self]
    rfl
  · rw [Function.update_of_ne hi, toNat_scaledConnects, Halving.add_of_ne hi]
    rfl

theorem NeverWraps.keepsOrder (hwraps : NeverWraps item thread b) : KeepsOrder item thread b where
  throughput := by
    intro i j hi hj hle
    rw [hwraps.throughputs_resize]
    exact Halving.add_le_add hi hj hle
  connects := by
    intro i j hi hj hle
    rw [hwraps.connects_resize]
    exact Halving.add_le_add hi hj hle

/-! ## Runs -/

/-- `Resize` for an item; there is no element for a `ThreadId` that is too large. -/
def resizing (item : ThreadLoadData) (b : LoadBalance n) : Option (LoadBalance n) :=
  if hthread : item.threadId.toNat < n then some (b.resize item ⟨item.threadId.toNat, hthread⟩)
  else none

theorem Reported.resizing_eq (hitem : Reported n item) (b : LoadBalance n) :
    resizing item b = some (b.resize item ⟨item.threadId.toNat, hitem.thread⟩) :=
  dif_pos hitem.thread

/-- With `KeepData` the items that are popped are handed to `Resize`. -/
theorem accountAll_eq_run (items : List ThreadLoadData) (hkeep : b.keepData = true) :
    accountAll items b = run resizing items b := by
  induction items generalizing b with
  | nil => rfl
  | cons item items ih =>
    unfold accountAll run account resizing
    by_cases hthread : item.threadId.toNat < n
    · rw [dif_pos hthread, dif_pos hthread, if_pos hkeep, Option.bind_some, Option.bind_some]
      exact ih hkeep
    · rw [dif_neg hthread, dif_neg hthread, Option.bind_none, Option.bind_none]

theorem exists_run_resizing {items : List ThreadLoadData} (hitems : ∀ item ∈ items, Reported n item)
    (b : LoadBalance n) : ∃ b', run resizing items b = some b' := by
  induction items generalizing b with
  | nil => exact ⟨b, rfl⟩
  | cons item items ih =>
    obtain ⟨hitem, hitems⟩ := List.forall_mem_cons.mp hitems
    obtain ⟨b', hrest⟩ := ih hitems (b.resize item ⟨item.threadId.toNat, hitem.thread⟩)
    use b'
    rw [run, hitem.resizing_eq, Option.bind_some, hrest]

/-- Two threads of which no item speaks keep their order over a whole run. -/
theorem run_le {items : List ThreadLoadData} {b' : LoadBalance n}
    (hitems : ∀ item ∈ items, Reported n item)
    (hothers : ∀ item ∈ items, item.threadId.toNat ≠ i.val ∧ item.threadId.toNat ≠ j.val)
    (hrun : run resizing items b = some b') :
    (b.throughputs i ≤ b.throughputs j → b'.throughputs i ≤ b'.throughputs j) ∧
      (b.connects i ≤ b.connects j → b'.connects i ≤ b'.connects j) := by
  induction items generalizing b with
  | nil =>
    cases hrun
    exact ⟨id, id⟩
  | cons item items ih =>
    obtain ⟨hitem, hitems⟩ := List.forall_mem_cons.mp hitems
    obtain ⟨⟨hi, hj⟩, hothers⟩ := List.forall_mem_cons.mp hothers
    rw [run, hitem.resizing_eq, Option.bind_some] at hrun
    have horder := (hitem.neverWraps ⟨item.threadId.toNat, hitem.thread⟩ b).keepsOrder
    have hi' : i ≠ ⟨item.threadId.toNat, hitem.thread⟩ := fun heq ↦ hi (congrArg Fin.val heq).symm
    have hj' : j ≠ ⟨item.threadId.toNat, hitem.thread⟩ := fun heq ↦ hj (congrArg Fin.val heq).symm
    have hrest := ih hitems hothers hrun
    constructor
    · intro hle
      exact hrest.1 (horder.throughput i j hi' hj' hle)
    · intro hle
      exact hrest.2 (horder.connects i j hi' hj' hle)

/-- In a run of `Resize` for items of the threads no addition wraps, and no call changes the order
of the other threads. -/
theorem meets_resizing (b : LoadBalance n) (items : List ThreadLoadData)
    (hitems : ∀ item ∈ items, item.threadId.toNat < n ∧ item.throughput.toNat ≤ 0x80000000 ∧
      item.connectionNumber.toNat ≤ 0x8000) :
    (∃ b', run resizing items b = some b') ∧
    Meets resizing b (fun item b ↦ ∀ thread : Fin n, thread.val = item.threadId.toNat →
      NeverWraps item thread b ∧ KeepsOrder item thread b) items := by
  have hreported : ∀ item ∈ items, Reported n item := by
    intro item hmem
    obtain ⟨hthread, hthroughput, hconnects⟩ := hitems item hmem
    exact ⟨hthread, hthroughput, hconnects⟩
  constructor
  · exact exists_run_resizing hreported b
  · intro past item before hpast _ thread _
    have hmem : item ∈ items :=
      hpast.subset (List.mem_append_right past (List.mem_singleton_self item))
    have hwraps := (hreported item hmem).neverWraps thread before
    exact ⟨hwraps, hwraps.keepsOrder⟩

/-- Two threads that have reported as much as there is room for. -/
def full : LoadBalance 2 where
  perThreadThroughput _ := 0xffffffff
  currentWeight _ := 0
  totalWeight := 0
  perThreadConnectNumber _ := 0xffff
  keepData := true

/-- The greatest items that are admitted, one for each of the threads. -/
theorem meets_resizing_full :
    (∃ b', run resizing [⟨0x80000000, 0, 0x8000⟩, ⟨0x80000000, 1, 0x8000⟩] full = some b') ∧
    Meets resizing full (fun item b ↦ ∀ thread : Fin 2, thread.val = item.threadId.toNat →
      NeverWraps item thread b ∧ KeepsOrder item thread b)
      [⟨0x80000000, 0, 0x8000⟩, ⟨0x80000000, 1, 0x8000⟩] :=
  meets_resizing full _ (by decide)

end LWebServer.LoadBalance
