import LWebServer.Library.Schedule
import LWebServer.Net.Buffering

/-!
# The capacity of the overflow buffer

A `Member` keeps its `Extrabuf` from one connection to the next. `Reset` doubles the array and
`BufferSize`; `init` allocates 4048 bytes and leaves `BufferSize` as it is.
-/

namespace LWebServer

open Schedule

/-- The buffers of a `Member`, and whether it is in the loop of `Socket::Read`. -/
structure Reused where
  receiving : Receiving
  inside : Bool

namespace Reused

/-- What happens to the buffers. -/
inductive Act where
  /-- `Socket::Read` is called. -/
  | read
  /-- One turn of its loop, with the contents of memory that is allocated. -/
  | recv (heap : ℕ → Byte) (answer : Recv)
  /-- The parser reads some bytes. -/
  | take (bytes : ℕ)
  /-- `Member::clear` -/
  | clear

def step : Act → Reused → Option Reused
  | .read, s =>
    if s.inside then none
    else some ⟨.start s.receiving.extraBuffer s.receiving.userBuffer, true⟩
  | .recv heap answer, s =>
    if s.inside then match Receiving.turn heap answer s.receiving with
      | .ok goes r => some ⟨r, goes⟩
      | .error _ _ => none
    else none
  | .take bytes, s =>
    if s.inside = false ∧ bytes ≤ s.receiving.userBuffer.readable then
      some { s with receiving.userBuffer := s.receiving.userBuffer.read bytes }
    else none
  | .clear, s =>
    if s.inside then none
    else some { s with
      receiving.userBuffer := s.receiving.userBuffer.clean
      receiving.extraBuffer := s.receiving.extraBuffer.clear }

/-- The buffers as they are constructed. -/
def new (size : ℕ) : Reused := ⟨.start {} (.new size), false⟩

/-- A valid `Extrabuf` has its fill level within the recorded size, which is the size of the array,
and `recv` is not offered more room than there is. -/
structure Within (s : Reused) : Prop where
  valid : s.receiving.extraBuffer.isVaild = true →
    0 ≤ s.receiving.extraBuffer.extrabufPeek ∧
      s.receiving.extraBuffer.extrabufPeek ≤ s.receiving.extraBuffer.bufferSize ∧
      s.receiving.extraBuffer.bufferSize = s.receiving.extraBuffer.allocated
  offered : s.inside = true → match s.receiving.startBuffer with
    | .user spot => spot + s.receiving.length ≤ s.receiving.userBuffer.bufferSize
    | .extra spot => spot + s.receiving.length ≤ s.receiving.extraBuffer.allocated

/-- So many bytes fill a `UserBuffer` to its end, and `Write` does not move what is unread to its
beginning. -/
def Fills (bytes : ℕ) (b : UserBuffer) : Prop :=
  b.writeSpot + bytes = b.bufferSize ∧ (b.readSpot = 0 ∨ b.readSpot < b.bufferSize / 2)

/-- The number of bytes that `recv` puts at `StartBuffer`, unless it returns `-1`. -/
def handed (r : Receiving) : Recv → Option ℕ
  | .bytes block => some (min block.length r.length)
  | .zero => some 0
  | _ => none

/-- No `recv` fills the `UserBuffer` while the `Extrabuf` is invalid and `BufferSize` is not what
`init` allocates. -/
def Unspoilt : Act → Reused → Prop
  | .recv _ answer, s => s.inside = true → s.receiving.extraBuffer.isVaild = false →
      s.receiving.extraBuffer.bufferSize ≠ 4048 →
      ∀ bytes ∈ handed s.receiving answer, ¬ Fills bytes s.receiving.userBuffer
  | _, _ => True

/-- The states that are reached as long as the sizes agree. While the `Extrabuf` is valid there is
no room in the `UserBuffer`, so that a further call of `Socket::Read` asks for no bytes. -/
structure Regular (s : Reused) : Prop where
  readSpot_le : s.receiving.userBuffer.readSpot ≤ s.receiving.userBuffer.writeSpot
  peek : s.receiving.extraBuffer.extrabufPeek = -1 ∨
    ∃ peek : ℕ, s.receiving.extraBuffer.extrabufPeek = peek ∧
      peek ≤ s.receiving.extraBuffer.bufferSize ∧
      s.receiving.extraBuffer.bufferSize = s.receiving.extraBuffer.allocated ∧
      s.receiving.userBuffer.writeable = 0
  user : s.inside = true → s.receiving.extraBuffer.extrabufPeek = -1 →
    s.receiving.startBuffer = .user s.receiving.userBuffer.writeSpot ∧
      s.receiving.length ≤ s.receiving.userBuffer.writeable
  extra : s.inside = true → ∀ peek : ℕ, s.receiving.extraBuffer.extrabufPeek = peek →
    s.receiving.startBuffer = .extra peek ∧
        peek + s.receiving.length ≤ s.receiving.extraBuffer.bufferSize ∨
      s.receiving.startBuffer = .user s.receiving.userBuffer.writeSpot ∧ s.receiving.length = 0

theorem isVaild_eq_false {e : Extrabuf} (hpeek : e.extrabufPeek = -1) : e.isVaild = false := by
  simp [Extrabuf.isVaild, hpeek]

theorem isVaild_eq_true {e : Extrabuf} {peek : ℕ} (hpeek : e.extrabufPeek = peek) :
    e.isVaild = true := by
  unfold Extrabuf.isVaild
  rw [hpeek]
  exact decide_eq_true (by omega)

variable {s s' : Reused}

theorem regular_new (size : ℕ) : Regular (new size) where
  readSpot_le := le_rfl
  peek := Or.inl rfl
  user hinside := by cases hinside
  extra hinside := by cases hinside

theorem Regular.within (hregular : Regular s) : Within s := by
  refine ⟨fun hvalid ↦ ?_, fun hinside ↦ ?_⟩
  · rcases hregular.peek with hinvalid | ⟨peek, hpeek, hle, hsize, -⟩
    · rw [isVaild_eq_false hinvalid] at hvalid
      cases hvalid
    · rw [hpeek]
      exact ⟨Int.natCast_nonneg _, Int.ofNat_le.mpr hle, hsize⟩
  · have hbound := s.receiving.userBuffer.writeSpot_le
    rcases hregular.peek with hinvalid | ⟨peek, hpeek, hle, hsize, -⟩
    · obtain ⟨hstart, hlength⟩ := hregular.user hinside hinvalid
      unfold UserBuffer.writeable at hlength
      rw [hstart]
      dsimp only
      omega
    · rcases hregular.extra hinside peek hpeek with ⟨hstart, hlength⟩ | ⟨hstart, hlength⟩
      · rw [hstart]
        dsimp only
        omega
      · rw [hstart]
        dsimp only
        omega

/-! ## Turns of the loop -/

/-- After a `Write` there is no room exactly if the bytes have filled the buffer. -/
theorem write_fills {b : UserBuffer} {bytes : ℕ} (hle : b.readSpot ≤ b.writeSpot)
    (hfits : b.writeSpot + bytes ≤ b.bufferSize) :
    ∃ b', b.write bytes = .ok bytes b' ∧ b'.bufferSize = b.bufferSize ∧
      b'.readSpot ≤ b'.writeSpot ∧ b.writeable ≤ b'.writeable + bytes ∧
      (b'.writeable = 0 ↔ Fills bytes b) := by
  let b₁ : UserBuffer := { b with writeSpot := b.writeSpot + bytes, writeSpot_le := hfits }
  have hwrite {b' : UserBuffer} (hmove : b₁.moveBuffer = .ok () b') :
      b.write bytes = .ok bytes b' := by
    unfold UserBuffer.write
    rw [dif_pos hfits]
    exact Op.bind_of_ok hmove
  have hle₁ : b₁.readSpot ≤ b₁.writeSpot := hle.trans (Nat.le_add_right _ _)
  unfold Fills
  by_cases hlow : b.readSpot < b.bufferSize / 2
  · refine ⟨b₁, hwrite (if_pos hlow), rfl, hle₁, ?_, ?_⟩
    · change b.bufferSize - b.writeSpot ≤ b.bufferSize - (b.writeSpot + bytes) + bytes
      omega
    · change b.bufferSize - (b.writeSpot + bytes) = 0 ↔ _
      omega
  · have hmove : b₁.moveBuffer = .ok () b₁.moved := by
      unfold UserBuffer.moveBuffer
      rw [if_neg hlow, if_pos hle₁]
      rfl
    refine ⟨b₁.moved, hwrite hmove, rfl, Nat.zero_le _, ?_, ?_⟩
    · change b.bufferSize - b.writeSpot ≤ b.bufferSize - (b.writeSpot + bytes - b.readSpot) + bytes
      omega
    · change b.bufferSize - (b.writeSpot + bytes - b.readSpot) = 0 ↔ _
      omega

/-- Bytes that go to the `UserBuffer`. Where they fill it, `init` makes the `Extrabuf` valid. -/
theorem accept_invalid (heap : ℕ → Byte) {r : Receiving} {block : List Byte}
    (hinvalid : r.extraBuffer.extrabufPeek = -1)
    (hle : r.userBuffer.readSpot ≤ r.userBuffer.writeSpot)
    (hstart : r.startBuffer = .user r.userBuffer.writeSpot)
    (hfits : block.length ≤ r.userBuffer.writeable) :
    ∃ b : UserBuffer, b.bufferSize = r.userBuffer.bufferSize ∧ b.readSpot ≤ b.writeSpot ∧
      r.userBuffer.writeable ≤ b.writeable + block.length ∧
      (b.writeable = 0 ↔ Fills block.length r.userBuffer) ∧
      Receiving.accept heap block r = if b.writeable = 0 then
        .ok true { r with
          userBuffer := b
          sum := r.sum + block.length
          extraBuffer := r.extraBuffer.init
          startBuffer := .extra 0
          length := r.extraBuffer.bufferSize }
      else .ok true { r with
        userBuffer := b
        sum := r.sum + block.length
        length := r.length - block.length
        startBuffer := .user b.writeSpot } := by
  have hbound := r.userBuffer.writeSpot_le
  have hspot : r.userBuffer.writeSpot + block.length ≤ r.userBuffer.bufferSize := by
    unfold UserBuffer.writeable at hfits
    omega
  obtain ⟨b, hwrite, hcapacity, hle', hroom, hfills⟩ := @write_fills { r.userBuffer with
    buffer := Memory.store r.userBuffer.buffer r.userBuffer.writeSpot block } _ hle hspot
  refine ⟨b, hcapacity, hle', hroom, hfills, ?_⟩
  have hfresh : r.extraBuffer.init.writeAble.toNat = r.extraBuffer.bufferSize := by
    simp [Extrabuf.writeAble, Extrabuf.init]
  rw [Receiving.accept_received (isVaild_eq_false hinvalid) hstart hspot hwrite]
  unfold Receiving.committed
  dsimp only
  rw [hfresh]
  split_ifs <;> rfl

/-- Bytes that have gone to a valid `Extrabuf`. Where they fill it, it grows or the loop ends. -/
theorem commitExtra_valid {r : Receiving} {peek : ℕ} (heap : ℕ → Byte) (bytes : ℕ)
    (hpeek : r.extraBuffer.extrabufPeek = peek)
    (hsize : r.extraBuffer.bufferSize = r.extraBuffer.allocated)
    (hroom : peek + max bytes r.length ≤ r.extraBuffer.bufferSize) :
    ∃ goes r', Receiving.commitExtra heap bytes r = .ok goes r' ∧ r'.userBuffer = r.userBuffer ∧
      r'.extraBuffer.extrabufPeek = (peek + bytes : ℕ) ∧
      r'.extraBuffer.bufferSize = r'.extraBuffer.allocated ∧
      r'.startBuffer = .extra (peek + bytes) ∧
      peek + bytes + r'.length ≤ r'.extraBuffer.bufferSize := by
  have hwritten : (r.extraBuffer.write bytes).extrabufPeek = (peek + bytes : ℕ) := by
    simp [Extrabuf.write, hpeek]
  have hptr : (r.extraBuffer.write bytes).getPtr = peek + bytes := by
    rw [Extrabuf.getPtr, hwritten, Int.toNat_natCast]
  unfold Receiving.commitExtra
  dsimp only
  split_ifs with hfull hmark
  · refine ⟨false, _, rfl, rfl, hwritten, hsize, congrArg _ hptr, ?_⟩
    change peek + bytes + (r.length - bytes) ≤ r.extraBuffer.bufferSize
    omega
  · refine ⟨true, _, rfl, rfl, hwritten, rfl, congrArg _ hptr, ?_⟩
    change peek + bytes + Int.toNat ((r.extraBuffer.bufferSize * 2 : ℕ) -
      (r.extraBuffer.write bytes).extrabufPeek) ≤ r.extraBuffer.bufferSize * 2
    omega
  · refine ⟨true, _, rfl, rfl, hwritten, hsize, congrArg _ hptr, ?_⟩
    change peek + bytes + (r.length - bytes) ≤ r.extraBuffer.bufferSize
    omega

theorem accept_valid {r : Receiving} {block : List Byte} {peek : ℕ} (heap : ℕ → Byte)
    (hpeek : r.extraBuffer.extrabufPeek = peek)
    (hsize : r.extraBuffer.bufferSize = r.extraBuffer.allocated)
    (hle : peek ≤ r.extraBuffer.bufferSize) (hlength : block.length ≤ r.length)
    (hstart : r.startBuffer = .extra peek ∧ peek + r.length ≤ r.extraBuffer.bufferSize ∨
      r.startBuffer = .user r.userBuffer.writeSpot ∧ r.length = 0) :
    ∃ goes r', Receiving.accept heap block r = .ok goes r' ∧
      r'.userBuffer.readSpot = r.userBuffer.readSpot ∧
      r'.userBuffer.writeSpot = r.userBuffer.writeSpot ∧
      r'.userBuffer.bufferSize = r.userBuffer.bufferSize ∧
      r'.extraBuffer.extrabufPeek = (peek + block.length : ℕ) ∧
      r'.extraBuffer.bufferSize = r'.extraBuffer.allocated ∧
      r'.startBuffer = .extra (peek + block.length) ∧
      peek + block.length + r'.length ≤ r'.extraBuffer.bufferSize := by
  rcases hstart with ⟨hstart, hroom⟩ | ⟨hstart, hnone⟩
  · rw [Receiving.accept_extra hpeek hstart (by omega)]
    obtain ⟨goes, r', hcommit, huser, hrest⟩ := commitExtra_valid (r := { r with extraBuffer :=
      { r.extraBuffer with extrabuf := Memory.store r.extraBuffer.extrabuf peek block } })
      heap block.length hpeek hsize (by dsimp only; omega)
    exact ⟨goes, r', hcommit, congrArg _ huser, congrArg _ huser, congrArg _ huser, hrest⟩
  · have hfill : Receiving.fill block r = .ok () { r with userBuffer := { r.userBuffer with
        buffer := Memory.store r.userBuffer.buffer r.userBuffer.writeSpot block } } := by
      have hbound := r.userBuffer.writeSpot_le
      unfold Receiving.fill
      rw [hstart]
      exact if_pos (by omega)
    rw [Receiving.accept_of_fill hfill, if_pos (isVaild_eq_true hpeek)]
    obtain ⟨goes, r', hcommit, huser, hrest⟩ := commitExtra_valid (r := { r with userBuffer :=
      { r.userBuffer with
        buffer := Memory.store r.userBuffer.buffer r.userBuffer.writeSpot block } })
      heap block.length hpeek hsize (by dsimp only; omega)
    refine ⟨goes, r', hcommit, ?_, ?_, ?_, hrest⟩ <;> rw [huser]

/-- One turn of the loop. -/
theorem turn_eq (heap : ℕ → Byte) (answer : Recv) (r : Receiving) :
    match handed r answer with
    | some bytes => ∃ block, block.length = bytes ∧ bytes ≤ r.length ∧
        Receiving.turn heap answer r = Receiving.accept heap block r
    | none => ∃ goes, Receiving.turn heap answer r = .ok goes r := by
  cases answer with
  | bytes block =>
    exact ⟨block.take r.length, by rw [List.length_take, min_comm], min_le_right _ _, rfl⟩
  | zero => exact ⟨[], rfl, Nat.zero_le _, rfl⟩
  | eintr => exact ⟨true, rfl⟩
  | eagain => exact ⟨false, rfl⟩
  | failed => exact ⟨false, rfl⟩

theorem regular_recv_invalid (heap : ℕ → Byte) {answer : Recv} (hregular : Regular s)
    (hinside : s.inside = true) (hinvalid : s.receiving.extraBuffer.extrabufPeek = -1) {bytes : ℕ}
    (hhanded : handed s.receiving answer = some bytes) :
    ∃ r, Receiving.turn heap answer s.receiving = .ok true r ∧
      (Fills bytes s.receiving.userBuffer → r.extraBuffer = s.receiving.extraBuffer.init) ∧
      ((Fills bytes s.receiving.userBuffer → s.receiving.extraBuffer.bufferSize = 4048) →
        Regular ⟨r, true⟩) := by
  obtain ⟨hstart, hlength⟩ := hregular.user hinside hinvalid
  have hturn := turn_eq heap answer s.receiving
  rw [hhanded] at hturn
  obtain ⟨block, rfl, hle, hturn⟩ := hturn
  obtain ⟨b, -, hread, hroom, hfills, haccept⟩ := accept_invalid heap hinvalid
    hregular.readSpot_le hstart (hle.trans hlength)
  rw [hturn, haccept, ← hfills]
  by_cases hfull : b.writeable = 0
  · rw [if_pos hfull]
    have hpeeks : (0 : ℤ) ≠ -1 := by decide
    refine ⟨_, rfl, fun _ ↦ rfl, fun hsize ↦
      ⟨hread, Or.inr ⟨0, rfl, Nat.zero_le _, hsize hfull, hfull⟩,
        fun _ hpeek ↦ absurd hpeek hpeeks, fun _ peek hpeek ↦ ?_⟩⟩
    obtain rfl : 0 = peek := Int.ofNat.inj hpeek
    exact Or.inl ⟨rfl, (Nat.zero_add _).le⟩
  · rw [if_neg hfull]
    refine ⟨_, rfl, fun h ↦ absurd h hfull, fun _ ↦ ⟨hread, Or.inl hinvalid, fun _ _ ↦ ⟨rfl, ?_⟩,
      fun _ peek hpeek ↦ ?_⟩⟩
    · change s.receiving.length - block.length ≤ b.writeable
      omega
    · have hpeek' : s.receiving.extraBuffer.extrabufPeek = peek := hpeek
      omega

theorem regular_recv_valid (heap : ℕ → Byte) {answer : Recv} (hregular : Regular s)
    (hinside : s.inside = true) {peek : ℕ} (hpeek : s.receiving.extraBuffer.extrabufPeek = peek)
    {bytes : ℕ} (hhanded : handed s.receiving answer = some bytes) :
    ∃ goes r, Receiving.turn heap answer s.receiving = .ok goes r ∧ Regular ⟨r, goes⟩ := by
  have hstart := hregular.extra hinside peek hpeek
  have hturn := turn_eq heap answer s.receiving
  rw [hhanded] at hturn
  obtain ⟨block, rfl, hle, hturn⟩ := hturn
  obtain ⟨hsize, hpeek_le, hfull⟩ : s.receiving.extraBuffer.bufferSize =
      s.receiving.extraBuffer.allocated ∧ peek ≤ s.receiving.extraBuffer.bufferSize ∧
        s.receiving.userBuffer.writeable = 0 := by
    rcases hregular.peek with hinvalid | ⟨peek', hpeek', hle', hsize, hfull⟩
    · omega
    · exact ⟨hsize, by omega, hfull⟩
  obtain ⟨goes, r, haccept, hread, hwrite, hcapacity, hpeek', hsize', hstart', hroom⟩ :=
    accept_valid heap hpeek hsize hpeek_le hle hstart
  refine ⟨goes, r, hturn.trans haccept, ?_, Or.inr ⟨_, hpeek', ?_, hsize', ?_⟩,
    fun _ hinvalid ↦ ?_, fun _ peek' hpeek'' ↦ Or.inl ?_⟩
  · change r.userBuffer.readSpot ≤ r.userBuffer.writeSpot
    rw [hread, hwrite]
    exact hregular.readSpot_le
  · exact (Nat.le_add_right _ _).trans hroom
  · change r.userBuffer.bufferSize - r.userBuffer.writeSpot = 0
    rw [hcapacity, hwrite]
    exact hfull
  · have hinvalid' : r.extraBuffer.extrabufPeek = -1 := hinvalid
    omega
  · obtain rfl : peek + block.length = peek' := Int.ofNat.inj (hpeek'.symm.trans hpeek'')
    exact ⟨hstart', hroom⟩

/-! ## Steps and runs -/

theorem regular_step {act : Act} (hunspoilt : Unspoilt act s) (hregular : Regular s)
    (hstep : step act s = some s') : Regular s' := by
  cases act with
  | read =>
    unfold step at hstep
    dsimp only at hstep
    split_ifs at hstep
    cases hstep
    refine ⟨hregular.readSpot_le, hregular.peek, fun _ _ ↦ ⟨rfl, le_rfl⟩,
      fun _ peek hpeek ↦ Or.inr ⟨rfl, ?_⟩⟩
    rcases hregular.peek with hinvalid | ⟨-, -, -, -, hfull⟩
    · have hpeek' : s.receiving.extraBuffer.extrabufPeek = peek := hpeek
      omega
    · exact hfull
  | recv heap answer =>
    unfold step at hstep
    dsimp only at hstep
    split_ifs at hstep with hinside
    cases hhanded : handed s.receiving answer with
    | none =>
      have hturn := turn_eq heap answer s.receiving
      rw [hhanded] at hturn
      obtain ⟨goes, hturn⟩ := hturn
      rw [hturn] at hstep
      cases hstep
      exact ⟨hregular.readSpot_le, hregular.peek, fun _ ↦ hregular.user hinside,
        fun _ ↦ hregular.extra hinside⟩
    | some bytes =>
      rcases hregular.peek with hinvalid | ⟨peek, hpeek, -⟩
      · obtain ⟨r, hturn, -, hnext⟩ :=
          regular_recv_invalid heap hregular hinside hinvalid hhanded
        rw [hturn] at hstep
        cases hstep
        refine hnext fun hfills ↦ ?_
        by_contra hsize
        exact hunspoilt hinside (isVaild_eq_false hinvalid) hsize bytes hhanded hfills
      · obtain ⟨goes, r, hturn, hnext⟩ :=
          regular_recv_valid heap hregular hinside hpeek hhanded
        rw [hturn] at hstep
        cases hstep
        exact hnext
  | take bytes =>
    unfold step at hstep
    dsimp only at hstep
    split_ifs at hstep with hcond
    cases hstep
    obtain ⟨houtside, hreadable⟩ := hcond
    rw [UserBuffer.readable, sizeSub_of_le hregular.readSpot_le] at hreadable
    refine ⟨?_, hregular.peek, fun hinside ↦ ?_, fun hinside ↦ ?_⟩
    · have hle := hregular.readSpot_le
      change s.receiving.userBuffer.readSpot + bytes ≤ s.receiving.userBuffer.writeSpot
      omega
    · cases houtside.symm.trans hinside
    · cases houtside.symm.trans hinside
  | clear =>
    unfold step at hstep
    dsimp only at hstep
    split_ifs at hstep with hinside
    cases hstep
    exact ⟨le_rfl, Or.inl rfl, fun h ↦ absurd h hinside, fun h ↦ absurd h hinside⟩

/-- Where `init` is called although `BufferSize` has grown, the array is smaller than recorded. -/
theorem not_within_of_spoilt {act : Act} (hregular : Regular s) (hspoilt : ¬ Unspoilt act s) :
    ∃ s', step act s = some s' ∧ ¬ Within s' := by
  cases act with
  | recv heap answer =>
    unfold Unspoilt at hspoilt
    push Not at hspoilt
    obtain ⟨hinside, hvaild, hsize, bytes, hhanded, hfills⟩ := hspoilt
    rcases hregular.peek with hinvalid | ⟨peek, hpeek, -⟩
    · obtain ⟨r, hturn, hinit, -⟩ :=
        regular_recv_invalid heap hregular hinside hinvalid hhanded
      refine ⟨⟨r, true⟩, ?_, fun hwithin ↦ hsize ?_⟩
      · unfold step
        dsimp only
        rw [if_pos hinside, hturn]
      · have hvalid := hwithin.valid
        dsimp only at hvalid
        rw [hinit hfills] at hvalid
        exact (hvalid rfl).2.2
    · rw [isVaild_eq_true hpeek] at hvaild
      cases hvaild
  | _ => exact absurd trivial hspoilt

/-- Over any number of connections, the sizes agree in every state exactly if `init` is never called
after the `Extrabuf` has grown. -/
theorem within_iff_unspoilt (size : ℕ) (schedule : List Act) :
    Along step (new size) Within schedule ↔ Meets step (new size) Unspoilt schedule :=
  along_iff_meets (regular_new size) (fun _ ↦ Regular.within)
    (fun _ _ _ ↦ regular_step) fun _ _ ↦ not_within_of_spoilt

/-- What a call of `Socket::Read` does is a run of turns. -/
theorem exists_run_drain {heap : ℕ → Byte} {answers : List Recv} {r r' : Receiving}
    (hdrain : Receiving.drain heap answers r = .ok () r') :
    ∃ acts, run step acts ⟨r, true⟩ = some ⟨r', false⟩ := by
  induction answers generalizing r with
  | nil =>
    cases hdrain
    exact ⟨[.recv heap .eagain], rfl⟩
  | cons answer answers ih =>
    unfold Receiving.drain at hdrain
    obtain ⟨goes, r₁, hturn, hrest⟩ := Op.bind_ok hdrain
    have hstep : step (.recv heap answer) ⟨r, true⟩ = some ⟨r₁, goes⟩ := by
      unfold step
      dsimp only
      rw [if_pos rfl, hturn]
    cases goes with
    | true =>
      obtain ⟨acts, hrun⟩ := ih hrest
      exact ⟨.recv heap answer :: acts, by rw [run, hstep, Option.bind_some, hrun]⟩
    | false =>
      cases hrest
      exact ⟨[.recv heap answer], by rw [run, hstep, Option.bind_some, run]⟩

theorem exists_run_read {heap : ℕ → Byte} {answers : List Recv} {e : Extrabuf} {b : UserBuffer}
    {n : ℕ} (houtside : s.inside = false)
    (hread : Socket.read heap answers (s.receiving.extraBuffer, s.receiving.userBuffer) =
      .ok n (e, b)) :
    ∃ acts s', run step acts s = some s' ∧ s'.inside = false ∧ s'.receiving.extraBuffer = e ∧
      s'.receiving.userBuffer = b := by
  unfold Socket.read at hread
  dsimp only at hread
  cases hdrain : Receiving.drain heap answers
      (.start s.receiving.extraBuffer s.receiving.userBuffer) with
  | error _ _ =>
    rw [Receiving.start] at hdrain
    rw [hdrain] at hread
    cases hread
  | ok _ r =>
    obtain ⟨acts, hrun⟩ := exists_run_drain hdrain
    rw [Receiving.start] at hdrain
    rw [hdrain] at hread
    cases hread
    refine ⟨.read :: acts, ⟨r, false⟩, ?_, rfl, rfl, rfl⟩
    rw [run, step, houtside]
    exact hrun

/-! ## A second connection -/

/-- A first connection that makes the `Extrabuf` grow. -/
def growing (block : List Byte) : List Act :=
  [.read, .recv (fun _ ↦ 0) (.bytes block), .recv (fun _ ↦ 0) (.bytes block),
    .recv (fun _ ↦ 0) .eagain, .clear, .read]

theorem commitExtra_grows {r : Receiving} {peek : ℕ} (heap : ℕ → Byte) {bytes : ℕ}
    (hpeek : r.extraBuffer.extrabufPeek = peek) (hfull : peek + bytes = r.extraBuffer.bufferSize)
    (hlow : peek + bytes < Extrabuf.highWaterMark) :
    ∃ r', Receiving.commitExtra heap bytes r = .ok true r' ∧ r'.userBuffer = r.userBuffer ∧
      r'.extraBuffer.bufferSize = r.extraBuffer.bufferSize * 2 := by
  have hnone : (r.extraBuffer.write bytes).writeAble = 0 := by
    simp only [Extrabuf.writeAble, Extrabuf.write, hpeek]
    omega
  have hmark : (r.extraBuffer.write bytes).isExecutehighWaterMark = false := by
    simp only [Extrabuf.isExecutehighWaterMark, Extrabuf.getLength, Extrabuf.write, hpeek]
    exact decide_eq_false (by omega)
  unfold Receiving.commitExtra
  dsimp only
  rw [if_pos hnone, hmark, if_neg (by decide)]
  exact ⟨_, rfl, rfl, rfl⟩

theorem run_growing {block : List Byte} (hblock : block.length = 4048) :
    ∃ s, run step (growing block) (new 4048) = some s ∧ Regular s ∧ s.inside = true ∧
      s.receiving.extraBuffer.isVaild = false ∧ s.receiving.extraBuffer.bufferSize ≠ 4048 ∧
      s.receiving.length = 4048 ∧ Fills 4048 s.receiving.userBuffer := by
  have hwriteable : (UserBuffer.new 4048).writeable = 4048 := rfl
  obtain ⟨b, hcapacity, -, -, hfills, haccept⟩ := @accept_invalid (fun _ ↦ 0)
    (.start {} (.new 4048)) block rfl le_rfl rfl (hblock.trans hwriteable.symm).le
  rw [if_pos (hfills.mpr ⟨(congrArg (0 + ·) hblock).trans (by decide), Or.inl rfl⟩)] at haccept
  obtain ⟨r₁, hturn₁, huser₁, hextra₁, hstart₁, hlength₁⟩ :
      ∃ r₁, Receiving.turn (fun _ ↦ 0) (.bytes block) (.start {} (.new 4048)) = .ok true r₁ ∧
        r₁.userBuffer = b ∧ r₁.extraBuffer = Extrabuf.init {} ∧ r₁.startBuffer = .extra 0 ∧
        r₁.length = 4048 :=
    ⟨_, (Receiving.turn_bytes_eq (hblock.trans hwriteable.symm).le).trans haccept, rfl, rfl, rfl,
      rfl⟩
  have hpeek : r₁.extraBuffer.extrabufPeek = (0 : ℕ) := by
    rw [hextra₁]
    rfl
  have hfits : 0 + block.length ≤ r₁.extraBuffer.allocated := by
    rw [hextra₁, hblock]
    decide
  have hfull : 0 + block.length = r₁.extraBuffer.bufferSize := by
    rw [hextra₁, hblock]
    decide
  obtain ⟨r₂, hcommit, huser₂, hsize₂⟩ := @commitExtra_grows { r₁ with extraBuffer :=
    { r₁.extraBuffer with extrabuf := Memory.store r₁.extraBuffer.extrabuf 0 block } } 0
    (fun _ ↦ 0) block.length hpeek hfull (by rw [hblock]; decide)
  have hturn₂ : Receiving.turn (fun _ ↦ 0) (.bytes block) r₁ = .ok true r₂ := by
    rw [Receiving.turn_bytes_eq (by rw [hblock, hlength₁]),
      Receiving.accept_extra hpeek hstart₁ hfits]
    exact hcommit
  have hsize : r₂.extraBuffer.bufferSize = 8096 := by
    rw [hsize₂, hextra₁]
    rfl
  have hclean : r₂.userBuffer.clean.bufferSize = 4048 := by
    rw [huser₂]
    exact (congrArg UserBuffer.bufferSize huser₁).trans hcapacity
  refine ⟨⟨.start r₂.extraBuffer.clear r₂.userBuffer.clean, true⟩, ?_, ⟨le_rfl, Or.inl rfl,
    fun _ _ ↦ ⟨rfl, le_rfl⟩, fun _ peek hpeek ↦ ?_⟩, rfl, rfl, ?_, hclean, hclean.symm, Or.inl rfl⟩
  · have hfirst : step (.recv (fun _ ↦ 0) (.bytes block)) ⟨.start {} (.new 4048), true⟩ =
        some ⟨r₁, true⟩ := by
      rw [step, hturn₁]
      rfl
    have hsecond : step (.recv (fun _ ↦ 0) (.bytes block)) ⟨r₁, true⟩ = some ⟨r₂, true⟩ := by
      rw [step, hturn₂]
      rfl
    have hread : step .read (new 4048) = some ⟨.start {} (.new 4048), true⟩ := rfl
    unfold growing
    rw [run, hread, Option.bind_some, run, hfirst, Option.bind_some, run, hsecond,
      Option.bind_some]
    rfl
  · have hinvalid : (-1 : ℤ) = peek := hpeek
    omega
  · change r₂.extraBuffer.bufferSize ≠ 4048
    omega

/-- A second connection that fills the `UserBuffer` is offered room that the new array has not. -/
theorem not_within_growing :
    ¬ Along step (new 4048) Within (growing (List.replicate 4048 0) ++
      [.recv (fun _ ↦ 0) (.bytes (List.replicate 4048 0))]) := by
  intro halong
  have hblock : (List.replicate 4048 (0 : Byte)).length = 4048 := List.length_replicate
  obtain ⟨s, hrun, hregular, hinside, hvaild, hsize, hlength, hfills⟩ := run_growing hblock
  have hhanded : handed s.receiving (.bytes (List.replicate 4048 0)) = some 4048 := by
    rw [handed, hblock, hlength]
    rfl
  obtain ⟨s', hstep, hnot⟩ := @not_within_of_spoilt s
    (.recv (fun _ ↦ 0) (.bytes (List.replicate 4048 0))) hregular
    fun hunspoilt ↦ hunspoilt hinside hvaild hsize 4048 hhanded hfills
  exact hnot (halong _ s' (List.prefix_refl _) (run_snoc.mpr ⟨s, hrun, hstep⟩))

end Reused

end LWebServer
