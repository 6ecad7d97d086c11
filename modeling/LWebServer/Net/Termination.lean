import LWebServer.Net.Buffering

/-!
# When a read returns

`Socket::Read` leaves its loop by `EAGAIN` or where the `Extrabuf` is full above its high-water
mark. A `recv` that answers 0 does not end it: neither the end of the stream nor a call without
room, which is what a second call has once the `Extrabuf` is in use.
-/

namespace LWebServer

/-! ## Peers -/

/-- What a `recv` finds next. -/
inductive Delivery where
  | chunk (block : List Byte)
  | eintr

/-- What a `recv` finds after all deliveries. -/
inductive Ending where
  /-- The connection is open. -/
  | eagain
  /-- The peer has shut down. -/
  | shut
  deriving DecidableEq

/-- A scripted socket. -/
structure Peer where
  deliveries : List Delivery
  ending : Ending

namespace Peer

/-- One `recv` with room for so many bytes. What does not fit stays in the kernel. -/
def recv (length : ℕ) (peer : Peer) : Recv × Peer :=
  if length = 0 then (.zero, peer)
  else match peer.deliveries with
    | .chunk block :: rest =>
      if block.length ≤ length then (.bytes block, { peer with deliveries := rest })
      else (.bytes (block.take length),
        { peer with deliveries := .chunk (block.drop length) :: rest })
    | .eintr :: rest => (.eintr, { peer with deliveries := rest })
    | [] => match peer.ending with
      | .eagain => (.eagain, peer)
      | .shut => (.zero, peer)

/-- The number of bytes that a peer delivers. -/
def total (peer : Peer) : ℕ :=
  (peer.deliveries.map fun
    | .chunk block => block.length
    | .eintr => 0).sum

theorem recv_of_pos {length : ℕ} (hpos : 0 < length) (deliveries : List Delivery)
    (ending : Ending) : recv length ⟨deliveries, ending⟩ = match deliveries with
      | .chunk block :: rest =>
        if block.length ≤ length then (.bytes block, ⟨rest, ending⟩)
        else (.bytes (block.take length), ⟨.chunk (block.drop length) :: rest, ending⟩)
      | .eintr :: rest => (.eintr, ⟨rest, ending⟩)
      | [] => match ending with
        | .eagain => (.eagain, ⟨[], .eagain⟩)
        | .shut => (.zero, ⟨[], .shut⟩) := by
  unfold recv
  rw [if_neg hpos.ne']
  rcases deliveries with _ | ⟨_ | _, _⟩
  · cases ending <;> rfl
  · rfl
  · rfl

/-- The bytes that one `recv` delivers, and the peer behind it. -/
structure Hands (peer : Peer) (length : ℕ) (block : List Byte) (peer' : Peer) : Prop where
  recv : peer.recv length = (.bytes block, peer')
  length_le : block.length ≤ length
  ending : peer'.ending = peer.ending
  total : peer.total = block.length + peer'.total
  shorter : peer'.total + peer'.deliveries.length < peer.total + peer.deliveries.length

theorem total_chunk (block : List Byte) (rest : List Delivery) (ending : Ending) :
    (⟨.chunk block :: rest, ending⟩ : Peer).total =
      block.length + (⟨rest, ending⟩ : Peer).total := by
  simp [total]

/-- A chunk is delivered as far as there is room for it. -/
theorem hands_chunk {length : ℕ} (hpos : 0 < length) {block : List Byte} {rest : List Delivery}
    {ending : Ending} : ∃ handed peer',
      Hands ⟨.chunk block :: rest, ending⟩ length handed peer' := by
  have hrecv := recv_of_pos hpos (.chunk block :: rest) ending
  dsimp only at hrecv
  split_ifs at hrecv with hfits
  · refine ⟨block, _, hrecv, hfits, rfl, total_chunk _ _ _, ?_⟩
    rw [total_chunk]
    simp only [List.length_cons]
    omega
  · have htake : (block.take length).length = length := List.length_take_of_le (by omega)
    have hdrop : (block.drop length).length = block.length - length := List.length_drop
    refine ⟨block.take length, _, hrecv, htake.le, rfl, ?_, ?_⟩
    · rw [total_chunk, total_chunk, htake, hdrop]
      omega
    · rw [total_chunk, total_chunk, hdrop]
      simp only [List.length_cons]
      omega

end Peer

namespace Receiving

/-- The loop of `Socket::Read` against a peer; nothing after the given number of turns. -/
def exchange (heap : ℕ → Byte) : ℕ → Peer → Receiving →
    Option (EStateM.Result Fail Receiving Unit)
  | 0, _, _ => none
  | turns + 1, peer, r =>
    match turn heap (peer.recv r.length).1 r with
    | .ok true r' => exchange heap turns (peer.recv r.length).2 r'
    | .ok false r' => some (.ok () r')
    | .error e r' => some (.error e r')

/-- The loop ends. -/
def Terminates (heap : ℕ → Byte) (peer : Peer) (r : Receiving) : Prop :=
  ∃ turns, (exchange heap turns peer r).isSome

variable {heap : ℕ → Byte} {peer : Peer} {r r' : Receiving}

theorem terminates_of_true (hturn : turn heap (peer.recv r.length).1 r = .ok true r') :
    Terminates heap peer r ↔ Terminates heap (peer.recv r.length).2 r' := by
  have hstep (turns : ℕ) : exchange heap (turns + 1) peer r =
      exchange heap turns (peer.recv r.length).2 r' := by
    rw [exchange, hturn]
  constructor
  · rintro ⟨turns, hsome⟩
    cases turns with
    | zero => cases hsome
    | succ turns =>
      rw [hstep] at hsome
      exact ⟨turns, hsome⟩
  · rintro ⟨turns, hsome⟩
    exact ⟨turns + 1, by rwa [hstep]⟩

theorem terminates_of_false (hturn : turn heap (peer.recv r.length).1 r = .ok false r') :
    Terminates heap peer r := by
  refine ⟨1, ?_⟩
  rw [exchange, hturn]
  rfl

/-- A state that a turn leads back to, up to what the turn changes without effect. -/
theorem not_terminates_of_invariant (invariant : Receiving → Prop)
    (hstep : ∀ r, invariant r → (peer.recv r.length).2 = peer ∧
      ∃ r', turn heap (peer.recv r.length).1 r = .ok true r' ∧ invariant r')
    (hinvariant : invariant r) : ¬ Terminates heap peer r := by
  rintro ⟨turns, hsome⟩
  induction turns generalizing r with
  | zero => cases hsome
  | succ turns ih =>
    obtain ⟨hpeer, r', hturn, hnext⟩ := hstep r hinvariant
    rw [exchange, hturn, hpeer] at hsome
    exact ih hnext hsome

/-- What the loop does against a peer it does on the answers that the peer has given. -/
theorem exists_drain {turns : ℕ} {result : EStateM.Result Fail Receiving Unit}
    (hexchange : exchange heap turns peer r = some result) :
    ∃ answers, drain heap answers r = result := by
  induction turns generalizing peer r with
  | zero => cases hexchange
  | succ turns ih =>
    rw [exchange] at hexchange
    cases hturn : turn heap (peer.recv r.length).1 r with
    | ok goes r' =>
      rw [hturn] at hexchange
      cases goes with
      | true =>
        obtain ⟨answers, hdrain⟩ := ih hexchange
        exact ⟨_ :: answers, (drain_cons_of_true hturn).trans hdrain⟩
      | false =>
        cases hexchange
        refine ⟨[(peer.recv r.length).1], ?_⟩
        unfold drain
        rw [Op.bind_of_ok hturn]
        rfl
    | error e r' =>
      rw [hturn] at hexchange
      cases hexchange
      refine ⟨[(peer.recv r.length).1], ?_⟩
      unfold drain
      rw [Op.bind_of_error hturn]

end Receiving

/-! ## Buffers between two calls -/

/-- The number of bytes that fill an `Extrabuf` up to the high-water mark: the first size above it
that doubling reaches. -/
def overflowLimit : ℕ := 4048 * 2 ^ 15

/-- An `Extrabuf` in use. It is full only where it has reached its limit. -/
structure Overflowed (peek : ℕ) (e : Extrabuf) : Prop where
  extrabufPeek : e.extrabufPeek = peek
  allocated : e.allocated = e.bufferSize
  size : ∃ doublings ≤ 15, e.bufferSize = 4048 * 2 ^ doublings
  peek_le : peek ≤ e.bufferSize
  full : peek = e.bufferSize → peek = overflowLimit

/-- The buffers as calls of `Socket::Read` leave them: the `Extrabuf` is in use only if the
`UserBuffer` is full. -/
structure Settled (e : Extrabuf) (b : UserBuffer) : Prop where
  readSpot : b.readSpot = 0
  extra : e.extrabufPeek = -1 ∧ e.bufferSize = 4048 ∨
    b.writeable = 0 ∧ ∃ peek, Overflowed peek e

/-- The buffers that calls of `Socket::Read` lead to, whatever `recv` has answered in them. -/
inductive Reached (size : ℕ) : Extrabuf → UserBuffer → Prop
  | new : Reached size {} (.new size)
  | read {e e' : Extrabuf} {b b' : UserBuffer} {n : ℕ} (hreached : Reached size e b)
      (heap : ℕ → Byte) (answers : List Recv)
      (hread : Socket.read heap answers (e, b) = .ok n (e', b')) : Reached size e' b'

theorem overflowed_init {e : Extrabuf} (hsize : e.bufferSize = 4048) : Overflowed 0 e.init := by
  refine ⟨rfl, hsize.symm, ⟨0, Nat.zero_le _, hsize⟩, Nat.zero_le _, fun hzero ↦ ?_⟩
  have hsame : e.init.bufferSize = 4048 := hsize
  omega

/-! ## Turns -/

namespace UserBuffer

/-- Nothing has been read, so that nothing is moved to another place. -/
theorem write_of_readSpot_eq_zero {b : UserBuffer} (hread : b.readSpot = 0) {bytes : ℕ}
    (hfits : b.writeSpot + bytes ≤ b.bufferSize) : ∃ b', b.write bytes = .ok bytes b' ∧
      b'.readSpot = 0 ∧ b'.writeSpot = b.writeSpot + bytes ∧ b'.bufferSize = b.bufferSize := by
  let b₁ : UserBuffer := { b with writeSpot := b.writeSpot + bytes, writeSpot_le := hfits }
  have hwrite {b' : UserBuffer} (hmove : b₁.moveBuffer = .ok () b') :
      b.write bytes = .ok bytes b' := by
    unfold write
    rw [dif_pos hfits]
    exact Op.bind_of_ok hmove
  by_cases hlow : b.readSpot < b.bufferSize / 2
  · have hmove : b₁.moveBuffer = .ok () b₁ := if_pos hlow
    exact ⟨b₁, hwrite hmove, hread, rfl, rfl⟩
  · have hle : b₁.readSpot ≤ b₁.writeSpot := hread.trans_le (Nat.zero_le _)
    have hmove : b₁.moveBuffer = .ok () b₁.moved := by
      unfold moveBuffer
      rw [if_neg hlow, if_pos hle]
      rfl
    refine ⟨b₁.moved, hwrite hmove, rfl, ?_, rfl⟩
    change b.writeSpot + bytes - b.readSpot = b.writeSpot + bytes
    rw [hread, Nat.sub_zero]

end UserBuffer

namespace Receiving

/-- The loop can receive so many bytes before the `Extrabuf` makes it leave. -/
inductive Ready : Receiving → ℕ → Prop
  | user {r : Receiving} (hinvalid : r.extraBuffer.extrabufPeek = -1)
      (hsize : r.extraBuffer.bufferSize = 4048) (hread : r.userBuffer.readSpot = 0)
      (hstart : r.startBuffer = .user r.userBuffer.writeSpot)
      (hlength : r.length = r.userBuffer.writeable) : Ready r (r.length + overflowLimit)
  | extra {r : Receiving} {peek : ℕ} (hoverflowed : Overflowed peek r.extraBuffer)
      (hread : r.userBuffer.readSpot = 0) (hfull : r.userBuffer.writeable = 0)
      (hstart : r.startBuffer = .extra peek) (hlength : peek + r.length = r.extraBuffer.bufferSize)
      (hpos : 0 < r.length) : Ready r (overflowLimit - peek)

variable {heap : ℕ → Byte} {peer : Peer} {r : Receiving} {room : ℕ} {block : List Byte}

/-- What one turn does with some bytes: the loop goes on until all the room is taken. -/
def Takes (heap : ℕ → Byte) (block : List Byte) (r : Receiving) (room : ℕ) : Prop :=
  (block.length < room ∧ ∃ r', accept heap block r = .ok true r' ∧
    Ready r' (room - block.length) ∧ 0 < r'.length) ∨
  (block.length = room ∧ ∃ r', accept heap block r = .ok false r' ∧
    Settled r'.extraBuffer r'.userBuffer)

theorem two_pow_le_of_le {doublings : ℕ} (hle : doublings ≤ 15) :
    4048 * 2 ^ doublings ≤ overflowLimit :=
  Nat.mul_le_mul_left _ (Nat.pow_le_pow_right (by decide) hle)

/-- Bytes that go to the `UserBuffer`; where they fill it, the `Extrabuf` is next. -/
theorem exists_accept_user (hinvalid : r.extraBuffer.extrabufPeek = -1)
    (hread : r.userBuffer.readSpot = 0)
    (hstart : r.startBuffer = .user r.userBuffer.writeSpot)
    (hle : block.length ≤ r.userBuffer.writeable) :
    ∃ b : UserBuffer, b.readSpot = 0 ∧ b.writeable = r.userBuffer.writeable - block.length ∧
      accept heap block r = if b.writeable = 0 then
        .ok true { r with
          userBuffer := b
          sum := r.sum + block.length
          extraBuffer := r.extraBuffer.init
          startBuffer := .extra r.extraBuffer.init.getPtr
          length := r.extraBuffer.init.writeAble.toNat }
      else .ok true { r with
        userBuffer := b
        sum := r.sum + block.length
        length := r.length - block.length
        startBuffer := .user b.writeSpot } := by
  have hbound := r.userBuffer.writeSpot_le
  have hfits : r.userBuffer.writeSpot + block.length ≤ r.userBuffer.bufferSize := by
    unfold UserBuffer.writeable at hle
    omega
  obtain ⟨b, hwrite, hread', hspot, hsize⟩ := @UserBuffer.write_of_readSpot_eq_zero
    { r.userBuffer with
      buffer := Memory.store r.userBuffer.buffer r.userBuffer.writeSpot block } hread _ hfits
  refine ⟨b, hread', ?_, ?_⟩
  · unfold UserBuffer.writeable
    rw [hsize, hspot, Nat.sub_sub]
  · rw [accept_received (by simp [Extrabuf.isVaild, hinvalid]) hstart hfits hwrite]
    unfold committed
    split_ifs <;> rfl

theorem takes_user (hinvalid : r.extraBuffer.extrabufPeek = -1)
    (hsize : r.extraBuffer.bufferSize = 4048) (hread : r.userBuffer.readSpot = 0)
    (hstart : r.startBuffer = .user r.userBuffer.writeSpot)
    (hlength : r.length = r.userBuffer.writeable) (hle : block.length ≤ r.length) :
    Takes heap block r (r.length + overflowLimit) := by
  obtain ⟨b, hread', hleft, haccept⟩ :=
    @exists_accept_user heap r block hinvalid hread hstart (hlength ▸ hle)
  rw [← hlength] at hleft
  have hlimit : 0 < overflowLimit := by decide
  refine .inl ⟨by omega, ?_⟩
  rw [haccept]
  by_cases hfull : b.writeable = 0
  · rw [if_pos hfull]
    have hready := @Ready.extra { r with
        userBuffer := b
        sum := r.sum + block.length
        extraBuffer := r.extraBuffer.init
        startBuffer := .extra r.extraBuffer.init.getPtr
        length := r.extraBuffer.init.writeAble.toNat } 0 (overflowed_init hsize) hread' hfull rfl
    have hfresh : r.extraBuffer.init.writeAble.toNat = 4048 := by
      simp [Extrabuf.writeAble, Extrabuf.init, hsize]
    have hall : r.length + overflowLimit - block.length = overflowLimit - 0 := by omega
    have hpos : 0 < r.extraBuffer.init.writeAble.toNat := by
      rw [hfresh]
      decide
    refine ⟨_, rfl, ?_, hpos⟩
    rw [hall]
    exact hready (by rw [Nat.zero_add, hfresh]; exact hsize.symm) hpos
  · rw [if_neg hfull]
    have hready := @Ready.user { r with
        userBuffer := b
        sum := r.sum + block.length
        length := r.length - block.length
        startBuffer := .user b.writeSpot } hinvalid hsize hread' rfl hleft.symm
    have hall : r.length + overflowLimit - block.length =
        r.length - block.length + overflowLimit := by omega
    have hpos : 0 < r.length - block.length := hleft ▸ Nat.pos_of_ne_zero hfull
    refine ⟨_, rfl, ?_, hpos⟩
    rw [hall]
    exact hready

/-- An `Extrabuf` that is full and has not reached its limit is below the high-water mark. -/
theorem size_lt_highWaterMark {doublings : ℕ} (hlt : doublings < 15) :
    4048 * 2 ^ doublings < Extrabuf.highWaterMark := by
  have hpow : 2 ^ doublings ≤ 2 ^ 14 := Nat.pow_le_pow_right (by decide) (by omega)
  have hmark : Extrabuf.highWaterMark = 64 * 1024 * 1024 := rfl
  omega

/-- A full `Extrabuf` below its limit gets a new array, of which one half is free. -/
theorem overflowed_reset (heap : ℕ → Byte) {e : Extrabuf} {doublings : ℕ} (hlt : doublings < 15)
    (hsize : e.bufferSize = 4048 * 2 ^ doublings) (hpeek : e.extrabufPeek = e.bufferSize) :
    Overflowed e.bufferSize (e.reset heap) := by
  have hpos := Nat.two_pow_pos doublings
  have hgrown : (e.reset heap).bufferSize = e.bufferSize * 2 := rfl
  refine ⟨hpeek, rfl, ⟨doublings + 1, hlt, ?_⟩, by omega, fun hfull ↦ by omega⟩
  rw [hgrown, hsize, pow_succ, Nat.mul_assoc]

theorem writeAble_reset (heap : ℕ → Byte) {e : Extrabuf} (hpeek : e.extrabufPeek = e.bufferSize) :
    (e.reset heap).writeAble.toNat = e.bufferSize := by
  have hgrown : (e.reset heap).bufferSize = e.bufferSize * 2 := rfl
  have hkept : (e.reset heap).extrabufPeek = e.bufferSize := hpeek
  unfold Extrabuf.writeAble
  rw [hkept, hgrown]
  omega

/-- The `Extrabuf` with some bytes behind its valid ones. -/
def appended (e : Extrabuf) (peek : ℕ) (block : List Byte) : Extrabuf :=
  Extrabuf.write block.length { e with extrabuf := Memory.store e.extrabuf peek block }

section

variable {peek : ℕ}

theorem extrabufPeek_appended {e : Extrabuf} (hpeek : e.extrabufPeek = peek) (block : List Byte) :
    (appended e peek block).extrabufPeek = (peek + block.length : ℕ) := by
  rw [Nat.cast_add, ← hpeek]
  rfl

variable (hoverflowed : Overflowed peek r.extraBuffer) (hread : r.userBuffer.readSpot = 0)
  (hfull : r.userBuffer.writeable = 0) (hstart : r.startBuffer = .extra peek)
  (hlength : peek + r.length = r.extraBuffer.bufferSize)

include hoverflowed hread hfull hstart hlength

/-- Bytes that leave room in the `Extrabuf`. -/
theorem takes_extra_of_lt (hlt : block.length < r.length) :
    Takes heap block r (overflowLimit - peek) := by
  obtain ⟨doublings, hdoublings, hsize⟩ := hoverflowed.size
  have hbound := two_pow_le_of_le hdoublings
  have hroom : peek + block.length < r.extraBuffer.bufferSize := by omega
  have hnext := extrabufPeek_appended hoverflowed.extrabufPeek block
  have hsome : (appended r.extraBuffer peek block).writeAble ≠ 0 := by
    have hwriteAble : (appended r.extraBuffer peek block).writeAble =
        (r.extraBuffer.bufferSize : ℤ) - (peek + block.length : ℕ) := congrArg _ hnext
    omega
  have hready := @Ready.extra { r with
      extraBuffer := appended r.extraBuffer peek block
      sum := r.sum + block.length
      length := r.length - block.length
      startBuffer := .extra (appended r.extraBuffer peek block).getPtr } (peek + block.length)
    ⟨hnext, hoverflowed.allocated, hoverflowed.size, hroom.le, fun h ↦ absurd h hroom.ne⟩
    hread hfull (congrArg (StartBuffer.extra ∘ Int.toNat) hnext)
  have hleft : peek + block.length + (r.length - block.length) = r.extraBuffer.bufferSize := by
    omega
  have hpos : 0 < r.length - block.length := Nat.sub_pos_of_lt hlt
  have haccept := @accept_extra heap r block peek hoverflowed.extrabufPeek hstart
    (hroom.le.trans_eq hoverflowed.allocated.symm)
  refine .inl ⟨by omega, _, haccept.trans (if_neg hsome), ?_, hpos⟩
  rw [Nat.sub_sub]
  exact hready hleft hpos

/-- Bytes that fill the `Extrabuf`. -/
theorem takes_extra_of_eq (hall : block.length = r.length) :
    Takes heap block r (overflowLimit - peek) := by
  obtain ⟨doublings, hdoublings, hsize⟩ := hoverflowed.size
  have hnone : peek + block.length = r.extraBuffer.bufferSize := hall ▸ hlength
  have hnext : (appended r.extraBuffer peek block).extrabufPeek = r.extraBuffer.bufferSize :=
    (extrabufPeek_appended hoverflowed.extrabufPeek block).trans (congrArg _ hnone)
  have hzero : (appended r.extraBuffer peek block).writeAble = 0 := sub_eq_zero.mpr hnext.symm
  have haccept := @accept_extra heap r block peek hoverflowed.extrabufPeek hstart
    (hnone.trans hoverflowed.allocated.symm).le
  have hmark : (appended r.extraBuffer peek block).isExecutehighWaterMark = true ↔
      Extrabuf.highWaterMark ≤ 4048 * 2 ^ doublings := by
    unfold Extrabuf.isExecutehighWaterMark Extrabuf.getLength
    rw [hnext, hsize, decide_eq_true_iff, Nat.cast_le]
  rcases Nat.lt_or_eq_of_le hdoublings with hlt | rfl
  · have htwo := Nat.two_pow_pos doublings
    have hpow := two_pow_le_of_le (Nat.succ_le_of_lt hlt)
    have hroom : block.length < overflowLimit - peek := by
      rw [pow_succ] at hpow
      omega
    have hbelow := mt hmark.mp (Nat.not_le_of_lt (size_lt_highWaterMark hlt))
    have hreset := @overflowed_reset heap (appended r.extraBuffer peek block) _ hlt hsize hnext
    have hfree := @writeAble_reset heap (appended r.extraBuffer peek block) hnext
    have hready := @Ready.extra { r with
        extraBuffer := (appended r.extraBuffer peek block).reset heap
        sum := r.sum + block.length
        length := ((appended r.extraBuffer peek block).reset heap).writeAble.toNat
        startBuffer := .extra ((appended r.extraBuffer peek block).reset heap).getPtr } _
      hreset hread hfull (congrArg (StartBuffer.extra ∘ Int.toNat) hreset.extrabufPeek)
    have hleft : r.extraBuffer.bufferSize +
        ((appended r.extraBuffer peek block).reset heap).writeAble.toNat =
          ((appended r.extraBuffer peek block).reset heap).bufferSize := by
      rw [hfree]
      exact (Nat.mul_two _).symm
    have hpos : 0 < ((appended r.extraBuffer peek block).reset heap).writeAble.toNat :=
      hfree ▸ hsize ▸ Nat.mul_pos (by decide) htwo
    refine .inl ⟨hroom, _, haccept.trans ((if_pos hzero).trans (if_neg hbelow)), ?_, hpos⟩
    rw [Nat.sub_sub, hnone]
    exact hready hleft hpos
  · have hlimit : r.extraBuffer.bufferSize = overflowLimit := hsize
    refine .inr ⟨by omega, _, haccept.trans ((if_pos hzero).trans (if_pos (hmark.mpr ?_))), hread,
      .inr ⟨hfull, _, hnext, hoverflowed.allocated, hoverflowed.size, le_rfl, fun _ ↦ hlimit⟩⟩
    decide

end

theorem Ready.takes (heap : ℕ → Byte) (block : List Byte) (hready : Ready r room)
    (hle : block.length ≤ r.length) :
    Takes heap block r room := by
  cases hready with
  | user hinvalid hsize hread hstart hlength =>
    exact takes_user hinvalid hsize hread hstart hlength hle
  | extra hoverflowed hread hfull hstart hlength hpos =>
    rcases Nat.lt_or_eq_of_le hle with hlt | hall
    · exact takes_extra_of_lt hoverflowed hread hfull hstart hlength hlt
    · exact takes_extra_of_eq hoverflowed hread hfull hstart hlength hall

theorem Ready.settled (hready : Ready r room) : Settled r.extraBuffer r.userBuffer := by
  cases hready with
  | user hinvalid hsize hread hstart hlength => exact ⟨hread, .inl ⟨hinvalid, hsize⟩⟩
  | extra hoverflowed hread hfull hstart hlength hpos =>
    exact ⟨hread, .inr ⟨hfull, _, hoverflowed⟩⟩

theorem Ready.room_pos (hready : Ready r room) : 0 < room := by
  have hlimit : 0 < overflowLimit := by decide
  cases hready with
  | user hinvalid hsize hread hstart hlength => omega
  | extra hoverflowed hread hfull hstart hlength hpos =>
    obtain ⟨doublings, hdoublings, hsize⟩ := hoverflowed.size
    have hbound := two_pow_le_of_le hdoublings
    omega

/-- A call that begins with the `Extrabuf` in use offers no room to `recv`. -/
structure Idle (peek : ℕ) (r : Receiving) : Prop where
  overflowed : Overflowed peek r.extraBuffer
  readSpot : r.userBuffer.readSpot = 0
  full : r.userBuffer.writeable = 0
  length : r.length = 0
  start : r.startBuffer = .user r.userBuffer.writeSpot ∨ r.startBuffer = .extra peek

theorem Idle.settled {peek : ℕ} (hidle : Idle peek r) : Settled r.extraBuffer r.userBuffer :=
  ⟨hidle.readSpot, .inr ⟨hidle.full, peek, hidle.overflowed⟩⟩

/-- The state after `recv` has answered 0 while the `Extrabuf` is in use. -/
def stalled (r : Receiving) : Receiving := { r with
  extraBuffer := r.extraBuffer.write 0
  length := r.length - 0
  startBuffer := .extra (r.extraBuffer.write 0).getPtr }

theorem write_zero (e : Extrabuf) : e.write 0 = e := by
  unfold Extrabuf.write
  rw [Nat.cast_zero, add_zero]

theorem Idle.stalled {peek : ℕ} (hidle : Idle peek r) : Idle peek r.stalled := by
  have hpeek := hidle.overflowed.extrabufPeek
  unfold Receiving.stalled
  rw [write_zero]
  refine ⟨hidle.overflowed, hidle.readSpot, hidle.full, hidle.length, .inr ?_⟩
  exact congrArg (StartBuffer.extra ∘ Int.toNat) hpeek

theorem Idle.accept_eq (heap : ℕ → Byte) {peek : ℕ} (hidle : Idle peek r) :
    accept heap [] r = if r.extraBuffer.writeAble = 0 then .ok false r.stalled
      else .ok true r.stalled := by
  obtain ⟨⟨hpeek, hallocated, -, hpeekLe, hlimit⟩, -, -, -, hstart⟩ := hidle
  have hnothing (mem : ℕ → Byte) (spot : ℕ) : Memory.store mem spot [] = mem := by
    funext i
    simp [Memory.store]
  have hfill : fill [] r = .ok () r := by
    obtain ⟨e, b, startBuffer, length, sum⟩ := r
    dsimp only at hallocated hpeekLe hstart
    unfold fill
    rcases hstart with rfl | rfl
    · simp only [hnothing, List.length_nil, Nat.add_zero]
      exact if_pos b.writeSpot_le
    · simp only [hnothing, List.length_nil, Nat.add_zero]
      exact if_pos (hpeekLe.trans_eq hallocated.symm)
  have hvaild : r.extraBuffer.isVaild = true := by
    unfold Extrabuf.isVaild
    rw [hpeek]
    exact decide_eq_true (by omega)
  rw [accept_of_fill hfill, if_pos hvaild]
  unfold commitExtra Receiving.stalled
  dsimp only [List.length_nil]
  rw [write_zero, Nat.add_zero]
  by_cases hnone : r.extraBuffer.writeAble = 0
  · have hmark : r.extraBuffer.isExecutehighWaterMark = true := by
      have hfull : peek = overflowLimit := hlimit (by
        unfold Extrabuf.writeAble at hnone
        omega)
      unfold Extrabuf.isExecutehighWaterMark Extrabuf.getLength
      rw [hpeek, hfull, decide_eq_true_iff]
      decide
    rw [if_pos hnone, if_pos hmark, if_pos hnone]
  · rw [if_neg hnone, if_neg hnone]

/-! ## Reachable buffers -/

/-- The loop is in one of the two states. -/
def Proceeds (r : Receiving) : Prop := (∃ room, Ready r room) ∨ ∃ peek, Idle peek r

theorem Proceeds.settled (hproceeds : Proceeds r) : Settled r.extraBuffer r.userBuffer := by
  rcases hproceeds with ⟨room, hready⟩ | ⟨peek, hidle⟩
  · exact hready.settled
  · exact hidle.settled

theorem Settled.start {e : Extrabuf} {b : UserBuffer} (hsettled : Settled e b) :
    (∃ peek, Idle peek (start e b)) ∨ e.extrabufPeek = -1 ∧
      Ready (Receiving.start e b) (b.writeable + overflowLimit) := by
  obtain ⟨hread, ⟨hinvalid, hsize⟩ | ⟨hfull, peek, hoverflowed⟩⟩ := hsettled
  · have hready := @Ready.user (Receiving.start e b) hinvalid hsize hread rfl rfl
    exact .inr ⟨hinvalid, hready⟩
  · exact .inl ⟨peek, hoverflowed, hread, hfull, hfull, .inl rfl⟩

theorem accept_proceeds (hproceeds : Proceeds r) (hle : block.length ≤ r.length) :
    ∃ goes r', accept heap block r = .ok goes r' ∧ (goes = true → Proceeds r') ∧
      Settled r'.extraBuffer r'.userBuffer := by
  rcases hproceeds with ⟨room, hready⟩ | ⟨peek, hidle⟩
  · rcases hready.takes heap block hle with
      ⟨-, r', haccept, hready', -⟩ | ⟨-, r', haccept, hsettled⟩
    · exact ⟨true, r', haccept, fun _ ↦ .inl ⟨_, hready'⟩, hready'.settled⟩
    · exact ⟨false, r', haccept, fun h ↦ absurd h (by decide), hsettled⟩
  · obtain rfl : block = [] := List.eq_nil_of_length_eq_zero (by have := hidle.length; omega)
    have haccept := hidle.accept_eq heap
    split_ifs at haccept
    · exact ⟨_, _, haccept, fun h ↦ absurd h (by decide), hidle.stalled.settled⟩
    · exact ⟨_, _, haccept, fun _ ↦ .inr ⟨peek, hidle.stalled⟩, hidle.stalled.settled⟩

theorem turn_proceeds (heap : ℕ → Byte) (hproceeds : Proceeds r) (answer : Recv) :
    ∃ goes r', turn heap answer r = .ok goes r' ∧ (goes = true → Proceeds r') ∧
      Settled r'.extraBuffer r'.userBuffer := by
  cases answer with
  | bytes block =>
    have hle : (block.take r.length).length ≤ r.length := List.length_take_le _ _
    exact accept_proceeds hproceeds hle
  | zero => exact accept_proceeds hproceeds (Nat.zero_le _)
  | eintr => exact ⟨true, r, rfl, fun _ ↦ hproceeds, hproceeds.settled⟩
  | eagain => exact ⟨false, r, rfl, fun h ↦ absurd h (by decide), hproceeds.settled⟩
  | failed => exact ⟨false, r, rfl, fun h ↦ absurd h (by decide), hproceeds.settled⟩

theorem drain_settled (heap : ℕ → Byte) (hproceeds : Proceeds r) (answers : List Recv) :
    ∃ r', drain heap answers r = .ok () r' ∧ Settled r'.extraBuffer r'.userBuffer := by
  induction answers generalizing r with
  | nil => exact ⟨r, rfl, hproceeds.settled⟩
  | cons answer answers ih =>
    obtain ⟨goes, r₁, hturn, hnext, hsettled⟩ := turn_proceeds heap hproceeds answer
    cases goes with
    | true =>
      rw [drain_cons_of_true hturn]
      exact ih (hnext rfl)
    | false =>
      unfold drain
      rw [Op.bind_of_ok hturn]
      exact ⟨r₁, rfl, hsettled⟩

end Receiving

open Receiving

theorem Settled.proceeds {e : Extrabuf} {b : UserBuffer} (hsettled : Settled e b) :
    Proceeds (start e b) := by
  rcases Settled.start hsettled with hidle | ⟨-, hready⟩
  · exact .inr hidle
  · exact .inl ⟨_, hready⟩

theorem Reached.settled {size : ℕ} {e : Extrabuf} {b : UserBuffer} (hreached : Reached size e b) :
    Settled e b := by
  induction hreached with
  | new => exact ⟨rfl, .inl ⟨rfl, rfl⟩⟩
  | read hreached heap answers hread ih =>
    obtain ⟨r, hdrain, hsettled⟩ := drain_settled heap ih.proceeds answers
    rw [Socket.read_of_drain hdrain] at hread
    cases hread
    exact hsettled

/-! ## Termination -/

namespace Receiving

variable {heap : ℕ → Byte} {peer : Peer} {r : Receiving} {room : ℕ}

/-- A peer that has shut down is asked again and again. -/
theorem not_terminates_of_shut (hready : Ready r room) (hpos : 0 < r.length) :
    ¬ Terminates heap ⟨[], .shut⟩ r := by
  refine not_terminates_of_invariant (fun r ↦ Ready r room ∧ 0 < r.length)
    (fun r hboth ↦ ?_) ⟨hready, hpos⟩
  obtain ⟨hready, hpos⟩ := hboth
  rw [Peer.recv_of_pos hpos]
  refine ⟨rfl, ?_⟩
  rcases hready.takes heap [] (Nat.zero_le _) with
    ⟨-, r', haccept, hready', hpos'⟩ | ⟨hnone, -⟩
  · exact ⟨r', haccept, hready', hpos'⟩
  · exact absurd hnone hready.room_pos.ne

/-- A call that receives bytes returns exactly if the peer keeps the connection open or delivers as
much as the buffers take. -/
theorem terminates_iff_of_ready (hready : Ready r room) (hpos : 0 < r.length) :
    Terminates heap peer r ↔ peer.ending = .eagain ∨ room ≤ peer.total := by
  induction hweight : peer.total + peer.deliveries.length using Nat.strong_induction_on
    generalizing peer r room with
  | _ weight ih =>
    obtain ⟨deliveries, ending⟩ := peer
    have hrecv := Peer.recv_of_pos hpos deliveries ending
    rcases deliveries with _ | ⟨block | _, rest⟩
    · cases ending with
      | eagain =>
        have hturn : turn heap (Peer.recv r.length ⟨[], .eagain⟩).1 r = .ok false r := by
          rw [hrecv]
          rfl
        exact iff_of_true (terminates_of_false hturn) (.inl rfl)
      | shut =>
        refine iff_of_false (not_terminates_of_shut hready hpos) ?_
        rintro (hopen | hroom)
        · cases hopen
        · exact absurd hready.room_pos (Nat.not_lt_of_le hroom)
    · obtain ⟨handed, peer', hhands⟩ := @Peer.hands_chunk _ hpos block rest ending
      have hturn : turn heap (Peer.recv r.length ⟨.chunk block :: rest, ending⟩).1 r =
          accept heap handed r := by
        rw [hhands.recv]
        exact turn_bytes_eq hhands.length_le
      have htotal := hhands.total
      rcases hready.takes heap _ hhands.length_le with
        ⟨hlt, r', haccept, hready', hpos'⟩ | ⟨hall, r', haccept, -⟩
      · have hnext := ih _ (hhands.shorter.trans_eq hweight) hready' hpos' rfl
        rw [terminates_of_true (hturn.trans haccept), hhands.recv, hnext, hhands.ending]
        exact or_congr_right (by omega)
      · exact iff_of_true (terminates_of_false (hturn.trans haccept)) (.inr (by omega))
    · have hturn : turn heap (Peer.recv r.length ⟨.eintr :: rest, ending⟩).1 r = .ok true r := by
        rw [hrecv]
        rfl
      have htotal : (⟨.eintr :: rest, ending⟩ : Peer).total = (⟨rest, ending⟩ : Peer).total := by
        simp [Peer.total]
      have hnext := @ih _ (by rw [← hweight, htotal]; exact Nat.lt_succ_self _) ⟨rest, ending⟩ _ _
        hready hpos rfl
      rw [terminates_of_true hturn, hrecv, hnext, htotal]

/-- A call that has no room to offer returns exactly if the `Extrabuf` is full. -/
theorem terminates_iff_of_idle {peek : ℕ} (hidle : Idle peek r) :
    Terminates heap peer r ↔ r.extraBuffer.writeAble = 0 := by
  have hrecv {r : Receiving} (hidle : Idle peek r) : peer.recv r.length = (.zero, peer) := by
    unfold Peer.recv
    rw [if_pos hidle.length]
  have hturn {r : Receiving} (hidle : Idle peek r) :
      turn heap (peer.recv r.length).1 r = if r.extraBuffer.writeAble = 0 then .ok false r.stalled
        else .ok true r.stalled := by
    rw [hrecv hidle]
    exact hidle.accept_eq heap
  by_cases hnone : r.extraBuffer.writeAble = 0
  · exact iff_of_true (terminates_of_false ((hturn hidle).trans (if_pos hnone))) hnone
  · refine iff_of_false (not_terminates_of_invariant
      (fun r ↦ Idle peek r ∧ r.extraBuffer.writeAble ≠ 0) (fun r hboth ↦ ?_)
      ⟨hidle, hnone⟩) hnone
    obtain ⟨hidle, hsome⟩ := hboth
    refine ⟨congrArg Prod.snd (hrecv hidle), r.stalled, (hturn hidle).trans (if_neg hsome),
      hidle.stalled, ?_⟩
    unfold Receiving.stalled
    rwa [write_zero]

/-- A call of `Socket::Read` returns exactly if the `Extrabuf` was not in use and the peer keeps the
connection open or fills both buffers up to their limit, or if the `Extrabuf` was full. -/
theorem terminates_iff {size : ℕ} {e : Extrabuf} {b : UserBuffer} (hreached : Reached size e b)
    (heap : ℕ → Byte) (peer : Peer) : Terminates heap peer (start e b) ↔
      if e.isVaild then e.writeAble = 0
      else peer.ending = .eagain ∨ b.writeable + overflowLimit ≤ peer.total := by
  rcases Settled.start hreached.settled with ⟨peek, hidle⟩ | ⟨hinvalid, hready⟩
  · have hvaild : e.isVaild = true := by
      have hpeek : e.extrabufPeek = peek := hidle.overflowed.extrabufPeek
      unfold Extrabuf.isVaild
      rw [hpeek]
      exact decide_eq_true (by omega)
    rw [if_pos hvaild]
    exact terminates_iff_of_idle hidle
  · rw [if_neg (by simp [Extrabuf.isVaild, hinvalid])]
    by_cases hpos : 0 < (start e b).length
    · exact terminates_iff_of_ready hready hpos
    · have hzero : (start e b).length = 0 := Nat.eq_zero_of_not_pos hpos
      have hrecv : peer.recv (start e b).length = (.zero, peer) := by
        unfold Peer.recv
        rw [if_pos hzero]
      rcases hready.takes heap [] (Nat.zero_le _) with
        ⟨-, r', haccept, hready', hpos'⟩ | ⟨hnone, -⟩
      · have hturn : turn heap (peer.recv (start e b).length).1 (start e b) = .ok true r' := by
          rw [hrecv]
          exact haccept
        rw [terminates_of_true hturn, hrecv]
        exact terminates_iff_of_ready hready' hpos'
      · exact absurd hnone hready.room_pos.ne

theorem terminates_iff_new :
    Terminates (fun _ ↦ 0) ⟨[.chunk (text "GET /")], .eagain⟩ (start {} (.new 4048)) ↔
      if ({} : Extrabuf).isVaild then ({} : Extrabuf).writeAble = 0
      else Ending.eagain = .eagain ∨ (UserBuffer.new 4048).writeable + overflowLimit ≤ 5 :=
  terminates_iff .new (fun _ ↦ 0) ⟨[.chunk (text "GET /")], .eagain⟩

/-- The peer sends a few bytes and shuts down. -/
theorem not_terminates_shut :
    ¬ Terminates (fun _ ↦ 0) ⟨[.chunk (text "GET /")], .shut⟩ (start {} (.new 4048)) := by
  have hready : Ready (start {} (.new 4048)) (4048 + overflowLimit) := .user rfl rfl rfl rfl rfl
  rw [terminates_iff_of_ready hready (by decide)]
  rintro (hopen | hroom)
  · cases hopen
  · exact absurd hroom (by decide)

end Receiving

end LWebServer
