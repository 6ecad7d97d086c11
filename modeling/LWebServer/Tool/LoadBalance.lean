import LWebServer.Base.Bytes
import LWebServer.Library.Apportion
import Mathlib.Algebra.BigOperators.Fin
import Mathlib.Data.List.FinRange

/-!
# The load balancer

`LoadBalance` gives each worker thread a weight and picks the thread for the next connection by
smooth weighted round-robin. The weights come from the throughput that the threads report through a
queue: a thread that has sent much gets the weight of one that has sent little.

A `long` is an integer here; `fits_credited` bounds what `distribution` computes.
-/

namespace LWebServer

/-- `ws::ThreadLoadData` -/
structure ThreadLoadData where
  throughput : UInt32
  threadId : UInt16
  connectionNumber : UInt16
  deriving DecidableEq, Repr

/-- `ws::LoadBalance` for `n` threads; the constructor sees to it that there is one at least. -/
structure LoadBalance (n : ℕ) where
  perThreadThroughput : Fin n → UInt32
  currentWeight : Fin n → ℤ
  totalWeight : ℤ
  perThreadConnectNumber : Fin n → UInt16
  keepData : Bool

namespace LoadBalance

variable {n : ℕ}

/-- `std::max_element`: the first of the greatest elements. -/
def maxElement [NeZero n] (v : Fin n → ℤ) : Fin n :=
  (List.finRange n).foldl (fun largest i ↦ if v largest < v i then i else largest) 0

/-- The first loop of `Distribution`. -/
def credited (b : LoadBalance n) : Fin n → ℤ :=
  fun i ↦ b.currentWeight i + (b.perThreadThroughput i).toNat

/-- `Distribution`: the index that is returned, and the balancer afterwards. -/
def distribution [NeZero n] (b : LoadBalance n) : Fin n × LoadBalance n :=
  let currentWeight := b.credited
  let index := maxElement currentWeight
  (index, { b with currentWeight :=
    Function.update currentWeight index (currentWeight index - b.totalWeight) })

/-- `Distribution` called some times in a row: the indices that are returned, and the balancer
afterwards. -/
def distributions [NeZero n] : ℕ → LoadBalance n → List (Fin n) × LoadBalance n
  | 0, b => ([], b)
  | calls + 1, b =>
    let (index, b) := b.distribution
    let (indices, b) := distributions calls b
    (index :: indices, b)

/-- `Resize`; `thread` is `item.ThreadId`. -/
def resize (item : ThreadLoadData) (thread : Fin n) (b : LoadBalance n) : LoadBalance n :=
  let connects :=
    if 0xffff - item.connectionNumber.toNat < (b.perThreadConnectNumber thread).toNat then
      fun i ↦ b.perThreadConnectNumber i / 2
    else b.perThreadConnectNumber
  let throughputs :=
    if 0xffffffff - item.throughput < b.perThreadThroughput thread then
      fun i ↦ b.perThreadThroughput i / 2
    else b.perThreadThroughput
  { b with
    perThreadConnectNumber :=
      Function.update connects thread (connects thread + item.connectionNumber)
    perThreadThroughput :=
      Function.update throughputs thread (throughputs thread + item.throughput) }

/-- What `ExtractDataDromLockFreeQueue` does before it reads the queue. -/
def beginExtract (b : LoadBalance n) : LoadBalance n :=
  if b.keepData then b
  else { b with perThreadThroughput := fun _ ↦ 0, perThreadConnectNumber := fun _ ↦ 0 }

/-- What `ExtractDataDromLockFreeQueue` does with an item that it has popped; there is no element
for a `ThreadId` that is too large. -/
def account (item : ThreadLoadData) (b : LoadBalance n) : Option (LoadBalance n) :=
  if hthread : item.threadId.toNat < n then
    let thread : Fin n := ⟨item.threadId.toNat, hthread⟩
    if b.keepData then some (b.resize item thread)
    else some { b with
      perThreadConnectNumber := Function.update b.perThreadConnectNumber thread
        (b.perThreadConnectNumber thread + item.connectionNumber)
      perThreadThroughput := Function.update b.perThreadThroughput thread
        (b.perThreadThroughput thread + item.throughput) }
  else none

/-- `std::accumulate` with an `int` to start from: each sum is taken of unsigned numbers of 32 bits
and converted to an `int`. -/
def accumulate (b : LoadBalance n) : ℤ :=
  (List.finRange n).foldl
    (fun sum i ↦ Int.bmod (sum + (b.perThreadThroughput i).toNat) (2 ^ 32)) 0

/-- The vector `temp` of `ExtractDataDromLockFreeQueue`, sorted. -/
def ranking (b : LoadBalance n) : List (UInt32 × Fin n) :=
  ((List.finRange n).map fun i ↦ (b.perThreadThroughput i, i)).mergeSort
    fun p q ↦ decide (p.1 < q.1 ∨ p.1 = q.1 ∧ p.2 ≤ q.2)

/-- The exchanges at the end of `ExtractDataDromLockFreeQueue`. -/
def exchange (temp : List (UInt32 × Fin n)) (v : Fin n → UInt32) : Fin n → UInt32 :=
  (List.range (n / 2)).foldl
    (fun v i ↦ match temp[i]?, temp[n - i - 1]? with
      | some p, some q => v ∘ Equiv.swap p.2 q.2
      | _, _ => v) v

/-- What `ExtractDataDromLockFreeQueue` does when it has emptied the queue. -/
def endExtract (b : LoadBalance n) : LoadBalance n :=
  { b with
    currentWeight := fun _ ↦ 0
    totalWeight := b.accumulate
    perThreadThroughput := exchange b.ranking b.perThreadThroughput }

/-! ## Turns -/

open Apportion

/-- `PerThreadThroughput`, as the weights of the threads. -/
def weights (b : LoadBalance n) : Fin n → ℤ := fun i ↦ (b.perThreadThroughput i).toNat

theorem weights_nonneg (b : LoadBalance n) (i : Fin n) : 0 ≤ b.weights i := Int.natCast_nonneg _

/-- A balancer in which `TotalWeight` is the sum of the weights and is not zero. -/
structure Weighted (b : LoadBalance n) : Prop where
  sum : ∑ i, b.weights i = b.totalWeight
  pos : 0 < b.totalWeight

/-- What `Distribution` computes stays within the total times the number of threads. -/
theorem fits_credited {b : LoadBalance n} (hweighted : b.Weighted)
    (hlevel : Level b.totalWeight b.currentWeight) (i : Fin n) :
    -b.totalWeight < b.credited i ∧ b.credited i ≤ n * b.totalWeight := by
  have habove := hlevel.above i
  have hbelow := hlevel.le i
  have hnonneg := b.weights_nonneg i
  have hweight : b.weights i ≤ b.totalWeight := by
    rw [← hweighted.sum]
    exact Finset.single_le_sum (fun j _ ↦ b.weights_nonneg j) (Finset.mem_univ i)
  rw [Fintype.card_fin] at hbelow
  have hcredited : b.credited i = b.currentWeight i + b.weights i := rfl
  constructor <;> linarith

section

variable [NeZero n] {b : LoadBalance n}

theorem le_maxElement (v : Fin n → ℤ) (i : Fin n) : v i ≤ v (maxElement v) := by
  have hscan (elements : List (Fin n)) (largest : Fin n) :
      let found := elements.foldl (fun largest i ↦ if v largest < v i then i else largest) largest
      v largest ≤ v found ∧ ∀ i ∈ elements, v i ≤ v found := by
    induction elements generalizing largest with
    | nil => exact ⟨le_rfl, fun i hi ↦ by cases hi⟩
    | cons j elements ih =>
      simp only [List.foldl_cons, List.forall_mem_cons]
      by_cases hlt : v largest < v j
      · rw [if_pos hlt]
        obtain ⟨hj, hrest⟩ := ih j
        exact ⟨hlt.le.trans hj, hj, hrest⟩
      · rw [if_neg hlt]
        obtain ⟨hlargest, hrest⟩ := ih largest
        exact ⟨hlargest, (not_lt.mp hlt).trans hlargest, hrest⟩
  exact (hscan (List.finRange n) 0).2 i (List.mem_finRange i)

/-- A call of `Distribution` is a turn in which the thread that is returned is served. -/
theorem currentWeight_distribution (b : LoadBalance n) :
    b.distribution.2.currentWeight =
      serve b.weights b.totalWeight b.distribution.1 b.currentWeight := by
  funext i
  unfold distribution serve
  dsimp only
  by_cases hi : i = maxElement b.credited
  · rw [hi, Function.update_self, if_pos rfl]
    rfl
  · rw [Function.update_of_ne hi, if_neg hi, sub_zero]
    rfl

theorem credited_le_distribution (b : LoadBalance n) (i : Fin n) :
    b.credited i ≤ b.credited b.distribution.1 :=
  le_maxElement b.credited i

theorem level_distribution (hweighted : b.Weighted)
    (hlevel : Level b.totalWeight b.currentWeight) :
    Level b.totalWeight b.distribution.2.currentWeight := by
  rw [currentWeight_distribution]
  exact hlevel.serve b.weights_nonneg hweighted.sum hweighted.pos b.credited_le_distribution

theorem level_distributions (hweighted : b.Weighted) (hlevel : Level b.totalWeight b.currentWeight)
    (calls : ℕ) : Level b.totalWeight (distributions calls b).2.currentWeight := by
  induction calls generalizing b with
  | zero => exact hlevel
  | succ calls ih =>
    have hweighted' : b.distribution.2.Weighted := ⟨hweighted.sum, hweighted.pos⟩
    exact ih hweighted' (level_distribution hweighted hlevel)

theorem length_distributions (calls : ℕ) (b : LoadBalance n) :
    (distributions calls b).1.length = calls := by
  induction calls generalizing b with
  | zero => rfl
  | succ calls ih => exact congrArg Nat.succ (ih b.distribution.2)

theorem currentWeight_distributions (calls : ℕ) (b : LoadBalance n) :
    (distributions calls b).2.currentWeight =
      serveAll b.weights b.totalWeight (distributions calls b).1 b.currentWeight := by
  induction calls generalizing b with
  | zero => rfl
  | succ calls ih =>
    refine (ih b.distribution.2).trans ?_
    rw [currentWeight_distribution]
    rfl

/-- From balances of zero on, the weights add up to zero and stay above `-TotalWeight`, and after
`TotalWeight` calls every thread has been chosen as often as its weight says. -/
theorem proportional_distributions (b : LoadBalance n)
    (hsum : ∑ i, ((b.perThreadThroughput i).toNat : ℤ) = b.totalWeight) (hpos : 1 ≤ b.totalWeight)
    (hzero : ∀ i, b.currentWeight i = 0) :
    (∀ calls, ∑ i, (distributions calls b).2.currentWeight i = 0 ∧
        ∀ i, -b.totalWeight < (distributions calls b).2.currentWeight i) ∧
      ∀ calls : ℕ, calls = b.totalWeight →
        (∀ i, (distributions calls b).2.currentWeight i = 0) ∧
        ∀ i, (distributions calls b).1.count i = (b.perThreadThroughput i).toNat := by
  have hweighted : b.Weighted := ⟨hsum, hpos⟩
  have hstart : b.currentWeight = 0 := funext hzero
  have hlevel (calls : ℕ) : Level b.totalWeight (distributions calls b).2.currentWeight :=
    level_distributions hweighted (hstart ▸ level_zero hweighted.pos) calls
  refine ⟨fun calls ↦ ⟨(hlevel calls).sum, (hlevel calls).above⟩, fun calls hcalls ↦ ?_⟩
  have hlength : ((distributions calls b).1.length : ℤ) = b.totalWeight := by
    rw [length_distributions, hcalls]
  have hturns := hlevel calls
  rw [currentWeight_distributions, hstart] at hturns
  constructor
  · intro i
    rw [currentWeight_distributions, hstart,
      serveAll_eq_zero hlength hweighted.sum hweighted.pos hturns]
    rfl
  · intro i
    exact Int.ofNat.inj (count_eq hlength hweighted.sum hweighted.pos hturns i)

end

/-- Three threads of which one has most of the weight. -/
def skewed : LoadBalance 3 where
  perThreadThroughput := fun i ↦ if i = 0 then 5 else 1
  currentWeight := fun _ ↦ 0
  totalWeight := 7
  perThreadConnectNumber := fun _ ↦ 0
  keepData := false

theorem proportional_skewed : (distributions 7 skewed).2.currentWeight 0 = 0 ∧
    (distributions 7 skewed).1.count 0 = 5 := by
  have hturns := (proportional_distributions skewed (by decide) (by decide) fun _ ↦ rfl).2 7 rfl
  exact ⟨hturns.1 0, hturns.2 0⟩

end LoadBalance

end LWebServer
