import LWebServer.Library.Lockstep
import LWebServer.Net.Buffering

/-!
# What a reused buffer still holds

Two buffers that are filled alike may differ above the write position, where one of them still holds
what an earlier connection has left there. Once the bytes reach into the second half of the array,
or are shifted out of it, the two are the same if they are the same in the second half.
-/

namespace LWebServer

open Memory Lockstep

/-- Overwriting a block keeps two memories equal where they are, and makes them so in the block. -/
theorem Memory.store_eq_store {α : Type*} {mem mem' : ℕ → α} (spot : ℕ) (block : List α) {i : ℕ}
    (hsame : mem' i = mem i ∨ spot ≤ i ∧ i < spot + block.length) :
    store mem' spot block i = store mem spot block i := by
  unfold store
  rcases hsame with hsame | ⟨hle, hlt⟩
  · rw [hsame]
  · have hin : i - spot < block.length := by omega
    simp [Nat.not_lt.mpr hle, List.getElem?_eq_getElem hin]

namespace UserBuffer

/-- The buffers agree up to the write position and in the second half of the array. -/
structure Resembles (b b' : UserBuffer) : Prop where
  writeSpot : b'.writeSpot = b.writeSpot
  readSpot : b'.readSpot = b.readSpot
  bufferSize : b'.bufferSize = b.bufferSize
  cells : ∀ i, i < b.writeSpot ∨ b.bufferSize / 2 ≤ i → b'.buffer i = b.buffer i

namespace Resembles

variable {b b' : UserBuffer}

theorem refl (b : UserBuffer) : Resembles b b := ⟨rfl, rfl, rfl, fun _ _ ↦ rfl⟩

/-- Nothing is left to differ once the second half has been reached. -/
theorem eq_of_half_le (hresembles : Resembles b b') (hhalf : b.bufferSize / 2 ≤ b.writeSpot) :
    b' = b := by
  obtain ⟨buffer, writeSpot, readSpot, bufferSize, hle⟩ := b
  obtain ⟨buffer', writeSpot', readSpot', bufferSize', hle'⟩ := b'
  obtain ⟨hwrite, hread, hsize, hcells⟩ := hresembles
  dsimp only at hwrite hread hsize hcells hhalf
  subst hwrite hread hsize
  have hbuffer : buffer' = buffer := by
    funext i
    apply hcells
    omega
  rw [hbuffer]

theorem writeable (hresembles : Resembles b b') : b'.writeable = b.writeable := by
  unfold UserBuffer.writeable
  rw [hresembles.bufferSize, hresembles.writeSpot]

theorem readable (hresembles : Resembles b b') : b'.readable = b.readable := by
  unfold UserBuffer.readable
  rw [hresembles.readSpot, hresembles.writeSpot]

/-- The cells below the write position are read alike. -/
theorem load_eq (hresembles : Resembles b b') {spot count : ℕ}
    (hbelow : spot + count ≤ b.writeSpot) :
    load b'.buffer spot count = load b.buffer spot count :=
  load_congr fun i _ hi ↦ hresembles.cells i (.inl (hi.trans_le hbelow))

theorem read (hresembles : Resembles b b') (n : ℕ) : Resembles (b.read n) (b'.read n) :=
  ⟨hresembles.writeSpot, congrArg (· + n) hresembles.readSpot, hresembles.bufferSize,
    hresembles.cells⟩

/-- The same bytes are put at the write position. -/
theorem put (hresembles : Resembles b b') (block : List Byte) :
    Resembles { b with buffer := store b.buffer b.writeSpot block }
      { b' with buffer := store b'.buffer b'.writeSpot block } := by
  refine ⟨hresembles.writeSpot, hresembles.readSpot, hresembles.bufferSize, fun i hi ↦ ?_⟩
  dsimp only at hi ⊢
  rw [hresembles.writeSpot]
  exact store_eq_store _ block (.inl (hresembles.cells i hi))

/-- The bytes that have been put at the write position are committed. -/
theorem stored (hresembles : Resembles b b') {block : List Byte}
    (hfits : b.writeSpot + block.length ≤ b.bufferSize)
    (hfits' : b'.writeSpot + block.length ≤ b'.bufferSize) :
    Resembles (b.stored block hfits) (b'.stored block hfits') := by
  refine ⟨congrArg (· + block.length) hresembles.writeSpot, hresembles.readSpot,
    hresembles.bufferSize, fun i hi ↦ ?_⟩
  simp only [UserBuffer.stored] at hi ⊢
  rw [hresembles.writeSpot]
  apply store_eq_store
  by_cases hlow : i < b.writeSpot
  · exact .inl (hresembles.cells i (.inl hlow))
  · rcases hi with hi | hi
    · exact .inr ⟨Nat.le_of_not_lt hlow, hi⟩
    · exact .inl (hresembles.cells i (.inr hi))

end Resembles

/-- Two buffers after the same calls since `origin`: they are the same, or else they were not the
same before and all that has happened is that bytes were added. -/
structure Twins (live : Prop) (origin b b' : UserBuffer) : Prop where
  resembles : Resembles b b'
  ordered : origin.readSpot ≤ origin.writeSpot → b.readSpot ≤ b.writeSpot
  grown : b' = b ∨ live ∧ b.readSpot = origin.readSpot ∧ origin.writeSpot ≤ b.writeSpot

variable {live : Prop} {origin b b' : UserBuffer}

theorem together_moveBuffer (htwins : Twins live origin b b') :
    Together (Twins live origin) (Twins live origin) (b.moveBuffer) (b'.moveBuffer) := by
  have hresembles := htwins.resembles
  by_cases hlow : b.readSpot < b.bufferSize / 2
  · have hlow' : b'.readSpot < b'.bufferSize / 2 := by
      rwa [hresembles.readSpot, hresembles.bufferSize]
    rw [show b.moveBuffer = .ok () b from if_pos hlow,
      show b'.moveBuffer = .ok () b' from if_pos hlow']
    exact .ok () htwins
  by_cases hle : b.readSpot ≤ b.writeSpot
  · obtain rfl := hresembles.eq_of_half_le ((Nat.le_of_not_lt hlow).trans hle)
    have hmove : b'.moveBuffer = .ok () b'.moved := by
      unfold moveBuffer
      rw [if_neg hlow, if_pos hle]
      rfl
    rw [hmove]
    exact .ok () ⟨.refl _, fun _ ↦ Nat.zero_le _, .inl rfl⟩
  · have hlow' : ¬ b'.readSpot < b'.bufferSize / 2 := by
      rwa [hresembles.readSpot, hresembles.bufferSize]
    have hle' : ¬ b'.readSpot ≤ b'.writeSpot := by
      rwa [hresembles.readSpot, hresembles.writeSpot]
    have hmove : b.moveBuffer = .error .undefinedBehaviour b := by
      unfold moveBuffer
      rw [if_neg hlow, if_neg hle]
    have hmove' : b'.moveBuffer = .error .undefinedBehaviour b' := by
      unfold moveBuffer
      rw [if_neg hlow', if_neg hle']
    rw [hmove, hmove']
    exact .error _ htwins

/-- Receiving the same bytes. -/
theorem together_receive (htwins : Twins live origin b b') (block : List Byte) :
    Together (Twins live origin) (Twins live origin) (b.receive block) (b'.receive block) := by
  have hresembles := htwins.resembles
  have hput := hresembles.put block
  have htwins' {c c' : UserBuffer} (hc : Resembles c c') (hread : c.readSpot = b.readSpot)
      (hwrite : b.writeSpot ≤ c.writeSpot) (hsame : b' = b → c' = c) :
      Twins live origin c c' := by
    refine ⟨hc, fun hle ↦ hread.trans_le ((htwins.ordered hle).trans hwrite), ?_⟩
    rcases htwins.grown with heq | ⟨hlive, hspot, hle⟩
    · exact .inl (hsame heq)
    · exact .inr ⟨hlive, hread.trans hspot, hle.trans hwrite⟩
  by_cases hfits : b.writeSpot + block.length ≤ b.bufferSize
  · have hfits' : b'.writeSpot + block.length ≤ b'.bufferSize := by
      rwa [hresembles.writeSpot, hresembles.bufferSize]
    have hreceive : b.receive block =
        (do moveBuffer; pure block.length) (b.stored block hfits) := by
      simp only [receive, write, dif_pos hfits]
      rfl
    have hreceive' : b'.receive block =
        (do moveBuffer; pure block.length) (b'.stored block hfits') := by
      simp only [receive, write, dif_pos hfits']
      rfl
    rw [hreceive, hreceive']
    have hstored : Twins live origin (b.stored block hfits) (b'.stored block hfits') :=
      htwins' (hresembles.stored hfits hfits') rfl (Nat.le_add_right _ _) fun heq ↦ by
        subst heq
        rfl
    exact (together_moveBuffer hstored).bind fun _ _ _ hrel ↦ .ok _ hrel
  · have hfits' : ¬ b'.writeSpot + block.length ≤ b'.bufferSize := by
      rwa [hresembles.writeSpot, hresembles.bufferSize]
    simp only [receive, write, dif_neg hfits, dif_neg hfits']
    exact .error _ (htwins' hput rfl le_rfl fun heq ↦ by subst heq; rfl)

end UserBuffer

/-! ## A call of `Read` -/

/-- Neither `Extrabuf` is in use. -/
structure Extrabuf.Idle (e e' : Extrabuf) : Prop where
  invalid : e.isVaild = false
  invalid' : e'.isVaild = false
  bufferSize : e'.bufferSize = e.bufferSize

theorem Extrabuf.Idle.init_eq {e e' : Extrabuf} (hidle : Idle e e') : e'.init = e.init := by
  unfold init
  rw [hidle.bufferSize]

namespace Receiving

open UserBuffer

/-- The buffers of two connections: they are the same, or they are twins and no `Extrabuf` is in
use. -/
def Alike (live : Prop) (origin : UserBuffer) (s s' : Extrabuf × UserBuffer) : Prop :=
  s' = s ∨ Extrabuf.Idle s.1 s'.1 ∧ Twins live origin s.2 s'.2

/-- The locals of two calls that have met the same. -/
structure Apart (live : Prop) (origin : UserBuffer) (r r' : Receiving) : Prop where
  idle : Extrabuf.Idle r.extraBuffer r'.extraBuffer
  twins : Twins live origin r.userBuffer r'.userBuffer
  startBuffer : r.startBuffer = .user r.userBuffer.writeSpot
  startBuffer' : r'.startBuffer = .user r.userBuffer.writeSpot
  length : r'.length = r.length
  sum : r'.sum = r.sum

def Same (live : Prop) (origin : UserBuffer) (r r' : Receiving) : Prop :=
  r' = r ∨ Apart live origin r r'

/-- What is left of the locals by a call that fails. -/
def Left (live : Prop) (origin : UserBuffer) (r r' : Receiving) : Prop :=
  Alike live origin (r.extraBuffer, r.userBuffer) (r'.extraBuffer, r'.userBuffer)

theorem Apart.left {live : Prop} {origin : UserBuffer} {r r' : Receiving}
    (hapart : Apart live origin r r') : Left live origin r r' := .inr ⟨hapart.idle, hapart.twins⟩

theorem Same.left {live : Prop} {origin : UserBuffer} {r r' : Receiving}
    (hsame : Same live origin r r') : Left live origin r r' := by
  rcases hsame with rfl | hapart
  · exact .inl rfl
  · exact hapart.left

theorem together_of_eq {α : Type} (live : Prop) (origin : UserBuffer) (f : Op Receiving α)
    (r : Receiving) : Together (Same live origin) (Left live origin) (f r) (f r) := by
  cases f r with
  | ok a r => exact .ok a (.inl rfl)
  | error e r => exact .error e (.inl rfl)

variable {live : Prop} {origin : UserBuffer} {r r' : Receiving} {b b' : UserBuffer}

theorem Apart.committed (hapart : Apart live origin r r') (htwins : Twins live origin b b')
    (ret : ℕ) : Same live origin (committed ret b r) (committed ret b' r') := by
  have hresembles := htwins.resembles
  unfold Receiving.committed
  dsimp only
  rw [hresembles.writeable, hapart.idle.init_eq, hapart.length, hapart.sum]
  by_cases hfull : b.writeable = 0
  · left
    have hhalf : b.bufferSize / 2 ≤ b.writeSpot := by
      unfold UserBuffer.writeable at hfull
      omega
    obtain rfl := hresembles.eq_of_half_le hhalf
    rw [if_pos hfull, if_pos hfull]
  · right
    rw [if_neg hfull, if_neg hfull]
    exact ⟨hapart.idle, htwins, rfl, congrArg _ hresembles.writeSpot, rfl, rfl⟩

theorem together_accept (hapart : Apart live origin r r') (heap : ℕ → Byte) (block : List Byte) :
    Together (Same live origin) (Left live origin) (accept heap block r)
      (accept heap block r') := by
  have hresembles := hapart.twins.resembles
  have hstart' : r'.startBuffer = .user r'.userBuffer.writeSpot := by
    rw [hapart.startBuffer', hresembles.writeSpot]
  rw [accept_idle hapart.idle.invalid hapart.startBuffer,
    accept_idle hapart.idle.invalid' hstart', hresembles.writeSpot, hresembles.bufferSize]
  split_ifs
  · have hreceive := together_receive hapart.twins block
    generalize r.userBuffer.receive block = result at hreceive
    generalize r'.userBuffer.receive block = result' at hreceive
    cases hreceive with
    | ok n htwins => exact .ok true (hapart.committed htwins block.length)
    | error e htwins => exact .error e (.inr ⟨hapart.idle, htwins⟩)
  · exact .error _ hapart.left

theorem together_turn (hsame : Same live origin r r') (heap : ℕ → Byte) (answer : Recv) :
    Together (Same live origin) (Left live origin) (turn heap answer r) (turn heap answer r') := by
  rcases hsame with rfl | hapart
  · exact together_of_eq live origin _ _
  cases answer with
  | bytes block =>
    have hturn := together_accept hapart heap (block.take r.length)
    simp only [turn, Op.bind_get, hapart.length]
    exact hturn
  | zero => exact together_accept hapart heap []
  | eintr => exact .ok true (.inr hapart)
  | eagain => exact .ok false (.inr hapart)
  | failed => exact .ok false (.inr hapart)

theorem together_drain (heap : ℕ → Byte) (answers : List Recv) (hsame : Same live origin r r') :
    Together (Same live origin) (Left live origin) (drain heap answers r)
      (drain heap answers r') := by
  induction answers generalizing r r' with
  | nil => exact .ok () hsame
  | cons answer answers ih =>
    refine (together_turn hsame heap answer).bind fun more s s' hrel ↦ ?_
    cases more with
    | true => exact ih hrel
    | false => exact .ok () hrel

end Receiving

/-- Two connections receive the same. -/
theorem Socket.together_read (heap : ℕ → Byte) (answers : List Recv) {e e' : Extrabuf}
    {b b' : UserBuffer} (hidle : Extrabuf.Idle e e') (hresembles : b.Resembles b') :
    Together (Receiving.Alike (b' ≠ b) b) (Receiving.Alike (b' ≠ b) b)
      (Socket.read heap answers (e, b)) (Socket.read heap answers (e', b')) := by
  have htwins : UserBuffer.Twins (b' ≠ b) b b b' := by
    refine ⟨hresembles, id, ?_⟩
    by_cases hsame : b' = b
    · exact .inl hsame
    · exact .inr ⟨hsame, rfl, le_rfl⟩
  have hsame : Receiving.Same (b' ≠ b) b
      { extraBuffer := e, userBuffer := b, startBuffer := .user b.writeSpot,
        length := b.writeable, sum := 0 }
      { extraBuffer := e', userBuffer := b', startBuffer := .user b'.writeSpot,
        length := b'.writeable, sum := 0 } :=
    .inr ⟨hidle, htwins, rfl, congrArg _ hresembles.writeSpot, hresembles.writeable, rfl⟩
  have hdrain := Receiving.together_drain heap answers hsame
  unfold Socket.read
  dsimp only
  generalize Receiving.drain heap answers _ = result at hdrain
  generalize Receiving.drain heap answers _ = result' at hdrain
  cases hdrain with
  | error e hleft => exact .error e hleft
  | ok a hsame =>
    rcases hsame with rfl | hapart
    · exact .ok _ (.inl rfl)
    · dsimp only
      rw [hapart.sum]
      exact .ok _ hapart.left

end LWebServer
