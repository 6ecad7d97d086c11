import LWebServer.Net.Socket

/-!
# What receiving keeps

The bytes of a connection go to the `UserBuffer` and, once that is full, to the `Extrabuf`. Nothing
is lost until the `Extrabuf` is full as well: `Reset` carries over none of its bytes.
-/

namespace LWebServer

open Memory

/-! ## The stream -/

/-- The bytes of an answer. -/
def Recv.chunk : Recv → List Byte
  | .bytes block => block
  | _ => []

/-- The bytes that the answers of a call deliver. -/
def streamed (answers : List Recv) : List Byte := answers.flatMap Recv.chunk

/-- The bytes that an `Extrabuf` holds, none while it is invalid. -/
def Extrabuf.valid (e : Extrabuf) : List Byte := load e.extrabuf 0 e.extrabufPeek.toNat

/-- The size of the `UserBuffer` of a connection, and of an `Extrabuf` at first. -/
def bufferLength : ℕ := 4048

/-- A stream of bytes in the buffers: the first ones in the `UserBuffer`, the others in the
`Extrabuf`. One that has grown begins with what `new` has found in memory. -/
structure Spilled (heap : ℕ → Byte) (s : List Byte) (e : Extrabuf) : Prop where
  peek : e.extrabufPeek = (s.length - bufferLength : ℕ)
  allocated : e.allocated = e.bufferSize
  content : if s.length < 2 * bufferLength then
      e.bufferSize = bufferLength ∧ e.valid = s.drop bufferLength
    else e.extrabuf 0 = heap 0

structure Held (heap : ℕ → Byte) (s : List Byte) (e : Extrabuf) (b : UserBuffer) : Prop where
  size : b.bufferSize = bufferLength
  readSpot : b.readSpot = 0
  unread : b.unread = s.take bufferLength
  spilled : if s.length < bufferLength then e.extrabufPeek = -1 ∧ e.bufferSize = bufferLength
    else Spilled heap s e

theorem Held.writeSpot_eq {heap : ℕ → Byte} {s : List Byte} {e : Extrabuf} {b : UserBuffer}
    (hheld : Held heap s e b) :
    b.writeSpot = min bufferLength s.length := by
  have hlength := congrArg List.length hheld.unread
  rwa [UserBuffer.length_unread, hheld.readSpot, Nat.sub_zero, List.length_take] at hlength

/-- Bytes received behind the others in the `UserBuffer`. -/
theorem unread_received {s : List Byte} {b : UserBuffer} {block : List Byte}
    (hreadSpot : b.readSpot = 0) (hunread : b.unread = s.take bufferLength)
    (hshort : (s ++ block).length ≤ bufferLength)
    (hfits : b.writeSpot + block.length ≤ b.bufferSize) :
    (b.stored block hfits).unread = (s ++ block).take bufferLength := by
  have hlength : (s ++ block).length = s.length + block.length := List.length_append
  rw [UserBuffer.unread_stored, hunread, hreadSpot, Nat.zero_sub, List.drop_zero,
    List.take_of_length_le hshort, List.take_of_length_le (by omega)]

/-- Bytes put behind the others in an `Extrabuf` that they do not fill. -/
theorem Spilled.append {heap : ℕ → Byte} {s : List Byte} {e : Extrabuf}
    (hspilled : Spilled heap s e) (hlong : bufferLength ≤ s.length) {block : List Byte}
    (hroom : s.length - bufferLength + block.length < e.bufferSize) :
    Spilled heap (s ++ block) (Extrabuf.write block.length
      { e with extrabuf := store e.extrabuf (s.length - bufferLength) block }) := by
  obtain ⟨hpeek, hallocated, hcontent⟩ := hspilled
  have hcount : (s ++ block).length - bufferLength = s.length - bufferLength + block.length := by
    rw [List.length_append]
    omega
  constructor
  case peek =>
    simp only [Extrabuf.write]
    rw [hpeek, hcount, Nat.cast_add]
  case allocated => simpa only [Extrabuf.write] using hallocated
  case content =>
    by_cases hsmall : s.length < 2 * bufferLength
    · rw [if_pos hsmall] at hcontent
      obtain ⟨hsize, hvalid⟩ := hcontent
      have hvalid' : load e.extrabuf 0 (s.length - bufferLength) = s.drop bufferLength := by
        rwa [Extrabuf.valid, hpeek, Int.toNat_natCast] at hvalid
      have hall := load_store_extend e.extrabuf 0 (s.length - bufferLength) block
      rw [hvalid', Nat.zero_add, ← hcount] at hall
      rw [if_pos (by rw [List.length_append]; omega)]
      refine ⟨by simpa only [Extrabuf.write] using hsize, ?_⟩
      have hpeek' : e.extrabufPeek + (block.length : ℤ) =
          ((s ++ block).length - bufferLength : ℕ) := by
        rw [hpeek, hcount, Nat.cast_add]
      simp only [Extrabuf.valid, Extrabuf.write, hpeek', Int.toNat_natCast]
      rw [hall, List.drop_append_of_le_length hlong]
    · rw [if_neg hsmall] at hcontent
      rw [if_neg (by rw [List.length_append]; omega)]
      have hpos : 0 < s.length - bufferLength := by
        have : bufferLength = 4048 := rfl
        omega
      simp only [Extrabuf.write]
      rw [store_of_lt _ _ hpos, hcontent]

namespace Receiving

/-- The state in which `Socket::Read` begins its loop. -/
def start (e : Extrabuf) (b : UserBuffer) : Receiving where
  extraBuffer := e
  userBuffer := b
  startBuffer := .user b.writeSpot
  length := b.writeable
  sum := 0

/-- The answers of the kernel in one call: chunks that are not empty and no longer than requested,
`EINTR`, and `EAGAIN` at the end. -/
def Legal (heap : ℕ → Byte) : List Recv → Receiving → Prop
  | [.eagain], _ => True
  | .eintr :: rest, r => Legal heap rest r
  | .bytes block :: rest, r => block ≠ [] ∧ block.length ≤ r.length ∧
      ∀ r', turn heap (.bytes block) r = .ok true r' → Legal heap rest r'
  | _, _ => False

/-- The stream received so far is in the buffers, and the next bytes go behind it. -/
structure Filling (heap : ℕ → Byte) (s : List Byte) (r : Receiving) : Prop where
  held : Held heap s r.extraBuffer r.userBuffer
  ready : if s.length < bufferLength then
      r.startBuffer = .user s.length ∧ r.length = bufferLength - s.length
    else r.startBuffer = .extra (s.length - bufferLength) ∧
      s.length - bufferLength + r.length = r.extraBuffer.bufferSize

variable {heap : ℕ → Byte} {s : List Byte} {r : Receiving}

theorem turn_bytes_eq {block : List Byte} (hlength : block.length ≤ r.length) :
    turn heap (.bytes block) r = accept heap block r := by
  have htake : block.take r.length = block := List.take_of_length_le hlength
  simp only [turn, Op.bind_get, htake]

theorem accept_of_fill {block : List Byte} {r' : Receiving} (hfill : fill block r = .ok () r') :
    accept heap block r = if r'.extraBuffer.isVaild then commitExtra heap block.length r'
      else commitUser block.length r' := by
  unfold accept
  rw [Op.bind_of_ok hfill, Op.bind_get]
  split_ifs <;> rfl

/-- What `commitUser` does behind a `write` that returned. -/
def committed (ret : ℕ) (b : UserBuffer) (r : Receiving) : Receiving :=
  let r := { r with
    userBuffer := b
    sum := r.sum + ret
    length := r.length - ret
    startBuffer := .user b.writeSpot }
  if b.writeable = 0 then
    let extra := r.extraBuffer.init
    { r with
      extraBuffer := extra
      startBuffer := .extra extra.getPtr
      length := extra.writeAble.toNat }
  else r

/-- While the `Extrabuf` is invalid, bytes for which there is room go to the `UserBuffer`. -/
theorem accept_idle {block : List Byte} (hinvalid : r.extraBuffer.isVaild = false)
    (hstart : r.startBuffer = .user r.userBuffer.writeSpot) :
    accept heap block r =
      if r.userBuffer.writeSpot + block.length ≤ r.userBuffer.bufferSize then
        match r.userBuffer.receive block with
        | .ok _ b => .ok true (committed block.length b r)
        | .error e b => .error e { r with userBuffer := b }
      else .error .undefinedBehaviour r := by
  have hfill : fill block r =
      if r.userBuffer.writeSpot + block.length ≤ r.userBuffer.bufferSize then
        .ok () { r with userBuffer :=
          { r.userBuffer with buffer := store r.userBuffer.buffer r.userBuffer.writeSpot block } }
      else .error .undefinedBehaviour r := by
    unfold fill
    rw [hstart]
  by_cases hfits : r.userBuffer.writeSpot + block.length ≤ r.userBuffer.bufferSize
  · rw [if_pos hfits] at hfill
    rw [if_pos hfits]
    rw [accept_of_fill hfill, if_neg (by simp [hinvalid])]
    unfold commitUser committed UserBuffer.receive
    dsimp only
    cases UserBuffer.write block.length { r.userBuffer with
        buffer := store r.userBuffer.buffer r.userBuffer.writeSpot block } with
    | ok n b =>
      dsimp only
      split_ifs <;> rfl
    | error e b => rfl
  · rw [if_neg hfits] at hfill
    rw [if_neg hfits]
    exact Op.bind_of_error hfill

theorem accept_received {block : List Byte} {n : ℕ} {b : UserBuffer}
    (hinvalid : r.extraBuffer.isVaild = false)
    (hstart : r.startBuffer = .user r.userBuffer.writeSpot)
    (hfits : r.userBuffer.writeSpot + block.length ≤ r.userBuffer.bufferSize)
    (hreceive : r.userBuffer.receive block = .ok n b) :
    accept heap block r = .ok true (committed block.length b r) := by
  rw [accept_idle hinvalid hstart, if_pos hfits, hreceive]

/-- While it is valid, they go to it. -/
theorem accept_extra {block : List Byte} {peek : ℕ} (hpeek : r.extraBuffer.extrabufPeek = peek)
    (hstart : r.startBuffer = .extra peek)
    (hfits : peek + block.length ≤ r.extraBuffer.allocated) :
    accept heap block r = commitExtra heap block.length { r with extraBuffer :=
      { r.extraBuffer with extrabuf := store r.extraBuffer.extrabuf peek block } } := by
  have hfill : fill block r = .ok () { r with extraBuffer :=
      { r.extraBuffer with extrabuf := store r.extraBuffer.extrabuf peek block } } := by
    unfold fill
    rw [hstart]
    exact if_pos hfits
  have hvaild : r.extraBuffer.isVaild = true := by
    unfold Extrabuf.isVaild
    rw [hpeek]
    exact decide_eq_true (by omega)
  rw [accept_of_fill hfill]
  exact if_pos hvaild

/-- A chunk that goes to the `UserBuffer`. -/
theorem turn_user (hfilling : Filling heap s r) (hshort : s.length < bufferLength)
    {block : List Byte} (hlength : block.length ≤ r.length) :
    ∃ r', turn heap (.bytes block) r = .ok true r' ∧ Filling heap (s ++ block) r' := by
  obtain ⟨hheld, hready⟩ := hfilling
  have hwriteSpot := hheld.writeSpot_eq
  obtain ⟨hsize, hreadSpot, hunread, hspilled⟩ := hheld
  rw [if_pos hshort] at hspilled hready
  obtain ⟨hpeek, hextra⟩ := hspilled
  obtain ⟨hstart, hrequest⟩ := hready
  rw [Nat.min_eq_right hshort.le] at hwriteSpot
  have hfits : r.userBuffer.writeSpot + block.length ≤ r.userBuffer.bufferSize := by omega
  have hinvalid : r.extraBuffer.isVaild = false := by simp [Extrabuf.isVaild, hpeek]
  rw [← hwriteSpot] at hstart
  have hlow : r.userBuffer.readSpot < r.userBuffer.bufferSize / 2 := by
    rw [hreadSpot, hsize]
    decide
  have hreceive := UserBuffer.receive_of_lt hfits hlow
  have hshort : (s ++ block).length ≤ bufferLength := by
    rw [List.length_append]
    omega
  have hall := unread_received hreadSpot hunread hshort hfits
  rw [turn_bytes_eq hlength, accept_received hinvalid hstart hfits hreceive]
  unfold committed
  dsimp only
  by_cases hfull : s.length + block.length = bufferLength
  · have hnone : (r.userBuffer.stored block hfits).writeable = 0 := by
      simp only [UserBuffer.writeable, UserBuffer.stored]
      omega
    have hcount : (s ++ block).length = bufferLength := by rw [List.length_append, hfull]
    rw [if_pos hnone]
    refine ⟨_, rfl, ⟨hsize, hreadSpot, hall, ?_⟩, ?_⟩
    · have hdrop : (s ++ block).drop bufferLength = [] := List.drop_eq_nil_of_le hcount.le
      rw [hcount, if_neg (lt_irrefl _)]
      refine ⟨?_, ?_, ?_⟩
      · rw [hcount]
        simp [Extrabuf.init]
      · simp [Extrabuf.init, hextra, bufferLength]
      · rw [hcount, if_pos (by decide), hdrop]
        exact ⟨hextra, rfl⟩
    · rw [hcount, if_neg (lt_irrefl _)]
      simp [Extrabuf.init, Extrabuf.getPtr, Extrabuf.writeAble]
  · have hsome : (r.userBuffer.stored block hfits).writeable ≠ 0 := by
      simp only [UserBuffer.writeable, UserBuffer.stored]
      omega
    have hshort' : (s ++ block).length < bufferLength := by
      rw [List.length_append]
      omega
    rw [if_neg hsome]
    refine ⟨_, rfl, ⟨hsize, hreadSpot, hall, ?_⟩, ?_⟩
    · rw [if_pos hshort']
      exact ⟨hpeek, hextra⟩
    · rw [if_pos hshort', List.length_append]
      refine ⟨?_, ?_⟩
      · simp only [UserBuffer.stored, hwriteSpot]
      · simp only
        omega

/-- A chunk that goes to the `Extrabuf`. -/
theorem turn_extra (hfilling : Filling heap s r) (hlong : bufferLength ≤ s.length)
    {block : List Byte} (hne : block ≠ []) (hlength : block.length ≤ r.length)
    (hmark : (s ++ block).length - bufferLength < Extrabuf.highWaterMark) :
    ∃ r', turn heap (.bytes block) r = .ok true r' ∧ Filling heap (s ++ block) r' := by
  obtain ⟨⟨hsize, hreadSpot, hunread, hspilled⟩, hready⟩ := hfilling
  have hpos := List.length_pos_of_ne_nil hne
  rw [if_neg (Nat.not_lt.mpr hlong)] at hspilled hready
  obtain ⟨hstart, hroom⟩ := hready
  have hcount : (s ++ block).length - bufferLength = s.length - bufferLength + block.length := by
    rw [List.length_append]
    omega
  have hlong' : ¬ (s ++ block).length < bufferLength := by
    rw [List.length_append]
    omega
  have htake : r.userBuffer.unread = (s ++ block).take bufferLength := by
    rw [hunread, List.take_append_of_le_length hlong]
  rw [turn_bytes_eq hlength,
    accept_extra hspilled.peek hstart (by rw [hspilled.allocated]; omega)]
  have hpeek : r.extraBuffer.extrabufPeek + (block.length : ℤ) =
      ((s ++ block).length - bufferLength : ℕ) := by
    rw [hspilled.peek, hcount, Nat.cast_add]
  unfold commitExtra
  dsimp only
  by_cases hfull : s.length - bufferLength + block.length = r.extraBuffer.bufferSize
  · have hnone : Extrabuf.writeAble (Extrabuf.write block.length { r.extraBuffer with
        extrabuf := store r.extraBuffer.extrabuf (s.length - bufferLength) block }) = 0 := by
      simp only [Extrabuf.writeAble, Extrabuf.write, hpeek]
      omega
    have hbelow : Extrabuf.isExecutehighWaterMark (Extrabuf.write block.length { r.extraBuffer with
        extrabuf := store r.extraBuffer.extrabuf (s.length - bufferLength) block }) = false := by
      simp only [Extrabuf.isExecutehighWaterMark, Extrabuf.getLength, Extrabuf.write, hpeek]
      simp only [decide_eq_false_iff_not]
      omega
    have hgrown : ¬ (s ++ block).length < 2 * bufferLength := by
      intro hsmall
      have hcontent := hspilled.content
      rw [List.length_append] at hsmall
      rw [if_pos (by omega)] at hcontent
      omega
    rw [if_pos hnone, hbelow, if_neg Bool.false_ne_true]
    refine ⟨_, rfl, ⟨hsize, hreadSpot, htake, ?_⟩, ?_⟩
    · rw [if_neg hlong']
      refine ⟨hpeek, rfl, ?_⟩
      rw [if_neg hgrown]
      simp only [Extrabuf.reset, hnone, Int.toNat_zero, load_zero, store]
      simp
    · rw [if_neg hlong']
      simp only [Extrabuf.reset, Extrabuf.getPtr, Extrabuf.writeAble, Extrabuf.write, hpeek]
      refine ⟨rfl, ?_⟩
      omega
  · have hsome : Extrabuf.writeAble (Extrabuf.write block.length { r.extraBuffer with
        extrabuf := store r.extraBuffer.extrabuf (s.length - bufferLength) block }) ≠ 0 := by
      simp only [Extrabuf.writeAble, Extrabuf.write, hpeek]
      omega
    rw [if_neg hsome]
    refine ⟨_, rfl, ⟨hsize, hreadSpot, htake, ?_⟩, ?_⟩
    · rw [if_neg hlong']
      exact hspilled.append hlong (by omega)
    · rw [if_neg hlong']
      simp only [Extrabuf.getPtr, Extrabuf.write, hpeek]
      refine ⟨rfl, ?_⟩
      omega

/-- One chunk, wherever it goes. -/
theorem turn_bytes (hfilling : Filling heap s r) {block : List Byte} (hne : block ≠ [])
    (hlength : block.length ≤ r.length)
    (hmark : (s ++ block).length - bufferLength < Extrabuf.highWaterMark) :
    ∃ r', turn heap (.bytes block) r = .ok true r' ∧ Filling heap (s ++ block) r' := by
  by_cases hshort : s.length < bufferLength
  · exact turn_user hfilling hshort hlength
  · exact turn_extra hfilling (Nat.le_of_not_lt hshort) hne hlength hmark

theorem drain_cons_of_true {answer : Recv} {rest : List Recv} {r' : Receiving}
    (hturn : turn heap answer r = .ok true r') :
    drain heap (answer :: rest) r = drain heap rest r' := by
  simp only [drain, Op.bind_of_ok hturn, if_true]

/-- The loop of a call. -/
theorem drain_filling {answers : List Recv} (hfilling : Filling heap s r)
    (hlegal : Legal heap answers r)
    (hmark : (s ++ streamed answers).length - bufferLength < Extrabuf.highWaterMark) :
    ∃ r', drain heap answers r = .ok () r' ∧ Filling heap (s ++ streamed answers) r' := by
  induction answers generalizing s r with
  | nil => exact absurd hlegal id
  | cons answer rest ih =>
    cases answer with
    | bytes block =>
      obtain ⟨hne, hlength, hnext⟩ := hlegal
      have hall : s ++ streamed (.bytes block :: rest) = s ++ block ++ streamed rest :=
        (List.append_assoc ..).symm
      rw [hall] at hmark ⊢
      obtain ⟨r₁, hturn, hfilling₁⟩ := turn_bytes hfilling hne hlength
        (by rw [List.length_append] at hmark; omega)
      rw [drain_cons_of_true hturn]
      exact ih hfilling₁ (hnext r₁ hturn) hmark
    | eintr =>
      rw [drain_cons_of_true (show turn heap .eintr r = .ok true r from rfl)]
      exact ih hfilling hlegal hmark
    | eagain =>
      cases rest with
      | nil => exact ⟨r, rfl, by simpa [streamed, Recv.chunk] using hfilling⟩
      | cons _ _ => exact absurd hlegal id
    | zero => exact absurd hlegal id
    | failed => exact absurd hlegal id

/-- A call that has no room to offer receives nothing. -/
theorem drain_idle {answers : List Recv} (hnone : r.length = 0) (hlegal : Legal heap answers r) :
    drain heap answers r = .ok () r ∧ streamed answers = [] := by
  induction answers with
  | nil => exact absurd hlegal id
  | cons answer rest ih =>
    cases answer with
    | bytes block =>
      obtain ⟨hne, hlength, -⟩ := hlegal
      exact absurd (List.length_pos_of_ne_nil hne) (by omega)
    | eintr =>
      obtain ⟨hdrain, hstreamed⟩ := ih hlegal
      rw [drain_cons_of_true (show turn heap .eintr r = .ok true r from rfl)]
      exact ⟨hdrain, hstreamed⟩
    | eagain =>
      cases rest with
      | nil => exact ⟨rfl, rfl⟩
      | cons _ _ => exact absurd hlegal id
    | zero => exact absurd hlegal id
    | failed => exact absurd hlegal id

end Receiving

/-! ## Calls -/

open Receiving

variable {heap : ℕ → Byte} {s : List Byte} {e : Extrabuf} {b : UserBuffer}

theorem filling_start (hheld : Held heap s e b) (hshort : s.length < bufferLength) :
    Filling heap s (start e b) := by
  have hwriteSpot := hheld.writeSpot_eq
  rw [Nat.min_eq_right hshort.le] at hwriteSpot
  refine ⟨hheld, ?_⟩
  rw [if_pos hshort]
  refine ⟨congrArg StartBuffer.user hwriteSpot, ?_⟩
  simp only [start, hwriteSpot, UserBuffer.writeable, hheld.size]

theorem Socket.read_of_drain {answers : List Recv} {r : Receiving}
    (hdrain : drain heap answers (start e b) = .ok () r) :
    Socket.read heap answers (e, b) = .ok r.sum (r.extraBuffer, r.userBuffer) := by
  unfold start at hdrain
  simp only [Socket.read, hdrain]

/-- One `Socket::Read`. -/
theorem Held.read {answers : List Recv} (hheld : Held heap s e b)
    (hlegal : Legal heap answers (start e b))
    (hmark : (s ++ streamed answers).length - bufferLength < Extrabuf.highWaterMark) :
    ∃ n e' b', Socket.read heap answers (e, b) = .ok n (e', b') ∧
      Held heap (s ++ streamed answers) e' b' := by
  have hwriteSpot := hheld.writeSpot_eq
  by_cases hshort : s.length < bufferLength
  · obtain ⟨r', hdrain, hfilling⟩ := drain_filling (filling_start hheld hshort) hlegal hmark
    exact ⟨_, _, _, Socket.read_of_drain hdrain, hfilling.held⟩
  · have hnone : (start e b).length = 0 := by
      simp only [start, UserBuffer.writeable, hheld.size]
      omega
    obtain ⟨hdrain, hstreamed⟩ := drain_idle hnone hlegal
    rw [hstreamed, List.append_nil]
    exact ⟨_, _, _, Socket.read_of_drain hdrain, hheld⟩

namespace Socket

/-- Calls of `Socket::Read` in a row, each with what it finds in the memory that it allocates. -/
def readAll : (ℕ → ℕ → Byte) → List (List Recv) → Op (Extrabuf × UserBuffer) Unit
  | _, [] => pure ()
  | heaps, answers :: calls => do
    let _ ← read (heaps 0) answers
    readAll (fun i ↦ heaps (i + 1)) calls

/-- The answers of the kernel over some calls. -/
def LegalCalls : (ℕ → ℕ → Byte) → List (List Recv) → Extrabuf × UserBuffer → Prop
  | _, [], _ => True
  | heaps, answers :: calls, buffers => Legal (heaps 0) answers (start buffers.1 buffers.2) ∧
      ∀ n buffers', read (heaps 0) answers buffers = .ok n buffers' →
        LegalCalls (fun i ↦ heaps (i + 1)) calls buffers'

/-- All that some calls receive. -/
def received (calls : List (List Recv)) : List Byte := calls.flatMap streamed

/-- The calls of a new connection return, and the readable bytes of the `UserBuffer` followed by the
valid ones of the `Extrabuf` are all that has been received. -/
def Kept (heaps : ℕ → ℕ → Byte) (calls : List (List Recv)) : Prop :=
  ∃ e b, readAll heaps calls ({}, .new bufferLength) = .ok () (e, b) ∧
    b.unread ++ e.valid = received calls

theorem held_new (heap : ℕ → Byte) : Held heap [] {} (.new bufferLength) :=
  ⟨rfl, rfl, rfl, rfl, rfl⟩

/-- The memory matters only to an `Extrabuf` that has grown. -/
theorem held_of_small {heap' : ℕ → Byte}
    (hsame : s.length < 2 * bufferLength ∨ heap' 0 = heap 0) (hheld : Held heap s e b) :
    Held heap' s e b := by
  obtain ⟨hsize, hreadSpot, hunread, hspilled⟩ := hheld
  refine ⟨hsize, hreadSpot, hunread, ?_⟩
  split_ifs at hspilled ⊢
  · exact hspilled
  · obtain ⟨hpeek, hallocated, hcontent⟩ := hspilled
    refine ⟨hpeek, hallocated, ?_⟩
    split_ifs at hcontent ⊢ with hsmall
    · exact hcontent
    · rw [hcontent, hsame.resolve_left hsmall]

/-- What some calls leave. -/
theorem held_readAll {heaps : ℕ → ℕ → Byte} {calls : List (List Recv)} (hheld : Held heap s e b)
    (hlegal : LegalCalls heaps calls (e, b))
    (hmark : (s ++ received calls).length - bufferLength < Extrabuf.highWaterMark)
    (hsame : ∀ i, (s ++ received calls).length < 2 * bufferLength ∨ heaps i 0 = heap 0) :
    ∃ e' b', readAll heaps calls (e, b) = .ok () (e', b') ∧
      Held heap (s ++ received calls) e' b' := by
  induction calls generalizing heaps s e b with
  | nil => exact ⟨e, b, rfl, by simpa [received] using hheld⟩
  | cons answers calls ih =>
    obtain ⟨hfirst, hrest⟩ := hlegal
    have hall : s ++ received (answers :: calls) = s ++ streamed answers ++ received calls :=
      (List.append_assoc ..).symm
    rw [hall] at hmark ⊢
    simp only [hall] at hsame
    have hle : (s ++ streamed answers ++ received calls).length =
        (s ++ streamed answers).length + (received calls).length := List.length_append
    have hle' : (s ++ streamed answers).length = s.length + (streamed answers).length :=
      List.length_append
    have hhere : Held (heaps 0) s e b := by
      refine held_of_small ((hsame 0).imp_left fun hsmall ↦ ?_) hheld
      omega
    obtain ⟨n, e₁, b₁, hread, hheld₁⟩ := hhere.read hfirst (by omega)
    have hback : Held heap (s ++ streamed answers) e₁ b₁ := by
      refine held_of_small ?_ hheld₁
      rcases hsame 0 with hsmall | hzero
      · exact .inl (by omega)
      · exact .inr hzero.symm
    obtain ⟨e', b', hreadAll, hheld'⟩ := ih hback (hrest n (e₁, b₁) hread) hmark
      fun i ↦ hsame (i + 1)
    exact ⟨e', b', (Op.bind_of_ok hread).trans hreadAll, hheld'⟩

/-- Buffers that have not grown hold all bytes. -/
theorem held_small (hheld : Held heap s e b) (hsmall : s.length < 2 * bufferLength) :
    b.unread ++ e.valid = s := by
  obtain ⟨-, -, hunread, hspilled⟩ := hheld
  rw [hunread]
  split_ifs at hspilled with hshort
  · have hnone : e.valid = [] := by simp [Extrabuf.valid, hspilled.1]
    rw [hnone, List.append_nil, List.take_of_length_le hshort.le]
  · have hcontent := hspilled.content
    rw [if_pos hsmall] at hcontent
    rw [hcontent.2, List.take_append_drop]

/-- Behind the first 4048 bytes, an `Extrabuf` that has grown holds what was in memory. -/
theorem held_large (hheld : Held heap s e b) (hlarge : 2 * bufferLength ≤ s.length) :
    (b.unread ++ e.valid)[bufferLength]? = some (heap 0) := by
  obtain ⟨-, -, hunread, hspilled⟩ := hheld
  have hsize : bufferLength = 4048 := rfl
  rw [if_neg (by omega)] at hspilled
  obtain ⟨hpeek, -, hcontent⟩ := hspilled
  rw [if_neg (by omega)] at hcontent
  have hlength : b.unread.length = bufferLength := by
    rw [hunread, List.length_take]
    omega
  have hpos : 0 < e.extrabufPeek.toNat := by omega
  rw [List.getElem?_append_right hlength.le, hlength, Nat.sub_self, Extrabuf.valid,
    getElem?_load _ _ _ _ hpos, hcontent]

/-- Once the `Extrabuf` has been full, bytes are lost for some contents of the memory. -/
theorem not_kept_of_large {calls : List (List Recv)} {heap : ℕ → Byte}
    (hlegal : LegalCalls (fun _ ↦ heap) calls ({}, .new bufferLength))
    (hmark : (received calls).length - bufferLength < Extrabuf.highWaterMark)
    (hlarge : 2 * bufferLength ≤ (received calls).length)
    (hother : (received calls)[bufferLength]? ≠ some (heap 0)) : ¬ Kept (fun _ ↦ heap) calls := by
  rintro ⟨e, b, hreadAll, hkept⟩
  obtain ⟨e', b', hreadAll', hheld⟩ := held_readAll (held_new heap) hlegal hmark fun _ ↦ .inr rfl
  rw [hreadAll] at hreadAll'
  cases hreadAll'
  have hlost := held_large hheld hlarge
  rw [hkept] at hlost
  exact hother hlost

/-- Nothing is lost, whatever memory holds, exactly if the `Extrabuf` has never been full. -/
theorem kept_iff {calls : List (List Recv)}
    (hlegal : ∀ heaps, LegalCalls heaps calls ({}, .new bufferLength))
    (hmark : (received calls).length - bufferLength < Extrabuf.highWaterMark) :
    (∀ heaps, Kept heaps calls) ↔ (received calls).length < 2 * bufferLength := by
  constructor
  · intro hkept
    by_contra hlarge
    have hbound : bufferLength < (received calls).length := by
      have hsize : bufferLength = 4048 := rfl
      omega
    have hbyte := List.getElem?_eq_getElem hbound
    refine not_kept_of_large (hlegal fun _ _ ↦ (received calls)[bufferLength] + 1) hmark
      (Nat.le_of_not_lt hlarge) ?_ (hkept _)
    rw [hbyte]
    simp
  · intro hsmall heaps
    obtain ⟨e, b, hreadAll, hheld⟩ :=
      held_readAll (held_new (heaps 0)) (hlegal heaps) hmark fun _ ↦ .inl hsmall
    exact ⟨e, b, hreadAll, held_small hheld hsmall⟩

/-- A chunk that fills the `UserBuffer` and one for the `Extrabuf` are legal answers. -/
theorem legal_spill (hheld : Held heap s e b) (hshort : s.length < bufferLength)
    {first second : List Byte} (hfirst : s.length + first.length = bufferLength)
    (hne : second ≠ []) (hsecond : second.length ≤ bufferLength) :
    Legal heap [.bytes first, .bytes second, .eagain] (start e b) := by
  have hfilling := filling_start hheld hshort
  have hlength := hfilling.ready
  rw [if_pos hshort] at hlength
  have hfit : first.length ≤ (start e b).length := by omega
  refine ⟨List.ne_nil_of_length_pos (by omega), by omega, fun r hturn ↦
    ⟨hne, ?_, fun _ _ ↦ trivial⟩⟩
  obtain ⟨r', hturn', hheld', hready⟩ := turn_user hfilling hshort hfit
  rw [hturn] at hturn'
  cases hturn'
  have hspilled := hheld'.spilled
  have hfull : ¬ (s ++ first).length < bufferLength := by
    rw [List.length_append]
    omega
  rw [if_neg hfull] at hready hspilled
  have hcontent := hspilled.content
  have hsize : bufferLength = 4048 := rfl
  rw [List.length_append] at hready hcontent
  rw [if_pos (by omega)] at hcontent
  omega

/-- Three bytes, and in another call as many as the two buffers take without the last one. -/
def spilling : List (List Recv) :=
  [[.bytes (text "GET"), .eagain],
    [.bytes (List.replicate 4045 0), .bytes (List.replicate 4047 1), .eagain]]

theorem spilling_legal (heaps : ℕ → ℕ → Byte) :
    LegalCalls heaps spilling ({}, .new bufferLength) := by
  have hlegal : Legal (heaps 0) [.bytes (text "GET"), .eagain] (start {} (.new bufferLength)) :=
    ⟨by decide, by decide, fun _ _ ↦ trivial⟩
  refine ⟨hlegal, fun n buffers hread ↦ ⟨?_, fun _ _ _ ↦ trivial⟩⟩
  obtain ⟨n', e, b, hread', hheld⟩ := (held_new (heaps 0)).read hlegal (by decide)
  rw [hread] at hread'
  cases hread'
  have hsmall : Held (heaps 1) (text "GET") e b := held_of_small (.inl (by decide)) hheld
  exact legal_spill hsmall (by decide) (by rw [List.length_replicate]; rfl)
    (List.ne_nil_of_length_pos (by rw [List.length_replicate]; decide))
    (by rw [List.length_replicate]; decide)

theorem kept_iff_spilling :
    (received spilling).length = 8095 ∧ ∀ heaps, Kept heaps spilling := by
  have hreceived : received spilling =
      text "GET" ++ (List.replicate 4045 0 ++ List.replicate 4047 1) := by
    simp [received, spilling, streamed, Recv.chunk, -List.reduceReplicate]
  have hlength : (received spilling).length = 8095 := by
    rw [hreceived, List.length_append, List.length_append, List.length_replicate,
      List.length_replicate]
    rfl
  refine ⟨hlength, (kept_iff spilling_legal ?_).mpr ?_⟩
  · rw [hlength]
    decide
  · rw [hlength]
    decide

/-- A call that receives two full chunks. -/
def twoChunks : List (List Recv) :=
  [[.bytes (List.replicate bufferLength 0), .bytes (List.replicate bufferLength 1), .eagain]]

theorem twoChunks_legal (heaps : ℕ → ℕ → Byte) :
    LegalCalls heaps twoChunks ({}, .new bufferLength) :=
  ⟨legal_spill (held_new (heaps 0)) (by decide) (by rw [List.length_replicate]; rfl)
    (List.ne_nil_of_length_pos (by rw [List.length_replicate]; decide))
    (by rw [List.length_replicate]), fun _ _ _ ↦ trivial⟩

/-- The second chunk is lost. -/
theorem not_kept_twoChunks : ∃ heaps, LegalCalls heaps twoChunks ({}, .new bufferLength) ∧
    (received twoChunks).length - bufferLength < Extrabuf.highWaterMark ∧
    ¬ Kept heaps twoChunks := by
  have hreceived : received twoChunks =
      List.replicate bufferLength 0 ++ List.replicate bufferLength 1 := by
    simp [received, twoChunks, streamed, Recv.chunk]
  have hlength : (received twoChunks).length = 2 * bufferLength := by
    rw [hreceived, List.length_append, List.length_replicate, List.length_replicate, two_mul]
  have hmark : (received twoChunks).length - bufferLength < Extrabuf.highWaterMark := by
    rw [hlength]
    decide
  refine ⟨fun _ _ ↦ 0, twoChunks_legal _, hmark,
    not_kept_of_large (twoChunks_legal _) hmark hlength.ge ?_⟩
  rw [hreceived, List.getElem?_append_right (by rw [List.length_replicate]),
    List.length_replicate, Nat.sub_self, List.getElem?_replicate]
  decide

end Socket

end LWebServer
