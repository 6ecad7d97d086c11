import LWebServer.Net.Buffering

/-!
# Bytes that find room

A call of `Read` whose bytes do not fill the `UserBuffer` appends them to the readable bytes. It
leaves the array below the write position as it was, unless the read position is in the second
half: then the unread bytes are shifted to the front.
-/

namespace LWebServer

open Memory

/-- `b'` is `b` with the bytes `s` received behind the unread ones. -/
structure Received (b : UserBuffer) (s : List Byte) (b' : UserBuffer) : Prop where
  bufferSize : b'.bufferSize = b.bufferSize
  readSpot_le : b'.readSpot ≤ b'.writeSpot
  unread : b'.unread = b.unread ++ s
  stays : b.readSpot < b.bufferSize / 2 → b'.readSpot = b.readSpot ∧ b.writeSpot ≤ b'.writeSpot ∧
    ∀ i, i < b.writeSpot → b'.buffer i = b.buffer i

/-- The bytes `s` do not fill the buffer to the end. Where the read position is in the second half
the unread bytes are shifted first. -/
def Roomy (b : UserBuffer) (s : List Byte) : Prop :=
  (if b.readSpot < b.bufferSize / 2 then b.writeSpot else b.writeSpot - b.readSpot) + s.length <
    b.bufferSize

instance (b : UserBuffer) (s : List Byte) : Decidable (Roomy b s) :=
  inferInstanceAs (Decidable (_ < _))

theorem Received.refl {b : UserBuffer} (hle : b.readSpot ≤ b.writeSpot) : Received b [] b :=
  ⟨rfl, hle, (List.append_nil _).symm, fun _ ↦ ⟨rfl, le_rfl, fun _ _ ↦ rfl⟩⟩

theorem Received.trans {b₁ b₂ b₃ : UserBuffer} {s t : List Byte} (hfirst : Received b₁ s b₂)
    (hsecond : Received b₂ t b₃) : Received b₁ (s ++ t) b₃ := by
  refine ⟨hsecond.bufferSize.trans hfirst.bufferSize, hsecond.readSpot_le, ?_, fun hlow ↦ ?_⟩
  · rw [hsecond.unread, hfirst.unread, List.append_assoc]
  · obtain ⟨hread, hwrite, hagree⟩ := hfirst.stays hlow
    rw [← hfirst.bufferSize, ← hread] at hlow
    obtain ⟨hread', hwrite', hagree'⟩ := hsecond.stays hlow
    refine ⟨hread'.trans hread, hwrite.trans hwrite', fun i hi ↦ ?_⟩
    rw [hagree' i (hi.trans_le hwrite), hagree i hi]

/-- The place in the array behind which the next bytes are found. -/
def UserBuffer.used (b : UserBuffer) : ℕ :=
  if b.readSpot < b.bufferSize / 2 then b.writeSpot else b.writeSpot - b.readSpot

theorem UserBuffer.used_le (b : UserBuffer) : b.used ≤ b.writeSpot := by
  unfold used
  split_ifs
  · exact le_rfl
  · exact Nat.sub_le _ _

theorem roomy_iff {b : UserBuffer} {s : List Byte} :
    Roomy b s ↔ b.used + s.length < b.bufferSize := Iff.rfl

/-- A chunk for which there is room. -/
theorem receive_of_fits {b : UserBuffer} {block : List Byte} (hle : b.readSpot ≤ b.writeSpot)
    (hfits : block.length ≤ b.writeable) :
    ∃ b', b.receive block = .ok block.length b' ∧ Received b block b' ∧
      b'.writeSpot = b.used + block.length := by
  have hbound := b.writeSpot_le
  have hfits' : b.writeSpot + block.length ≤ b.bufferSize := by
    unfold UserBuffer.writeable at hfits
    omega
  have hunread := UserBuffer.unread_stored hfits'
  rw [Nat.sub_eq_zero_of_le hle, List.drop_zero] at hunread
  unfold UserBuffer.used
  by_cases hlow : b.readSpot < b.bufferSize / 2
  · rw [if_pos hlow]
    refine ⟨_, UserBuffer.receive_of_lt hfits' hlow, ⟨rfl, ?_, hunread, fun _ ↦ ⟨rfl, ?_, ?_⟩⟩, rfl⟩
    · exact hle.trans (Nat.le_add_right _ _)
    · exact Nat.le_add_right _ _
    · exact fun i hi ↦ store_of_lt _ _ hi
  · rw [if_neg hlow]
    refine ⟨_, UserBuffer.receive_of_ge hfits' (Nat.le_of_not_lt hlow) (by omega),
      ⟨rfl, Nat.zero_le _, (UserBuffer.unread_moved _).trans hunread, fun h ↦ absurd h hlow⟩, ?_⟩
    simp only [UserBuffer.moved, UserBuffer.stored]
    omega

/-- Behind a chunk there is at least the room that it has left. -/
theorem writeable_le_of_receive {b b' : UserBuffer} {block : List Byte}
    (hreceived : Received b block b') (hwrite : b'.writeSpot = b.used + block.length) :
    b.writeable ≤ b'.writeable + block.length := by
  have hused := b.used_le
  rw [UserBuffer.writeable, UserBuffer.writeable, hreceived.bufferSize]
  omega

/-- A chunk that leaves room for the rest of the bytes. -/
theorem receive_of_roomy {b : UserBuffer} {block rest : List Byte}
    (hle : b.readSpot ≤ b.writeSpot) (hfits : block.length ≤ b.writeable)
    (hroomy : Roomy b (block ++ rest)) :
    ∃ b', b.receive block = .ok block.length b' ∧ Received b block b' ∧ Roomy b' rest ∧
      b.writeable ≤ b'.writeable + block.length ∧ b'.writeable ≠ 0 := by
  obtain ⟨b', hreceive, hreceived, hwrite⟩ := receive_of_fits hle hfits
  have hused := b'.used_le
  have hsize := hreceived.bufferSize
  rw [roomy_iff, List.length_append] at hroomy
  refine ⟨b', hreceive, hreceived, ?_, writeable_le_of_receive hreceived hwrite, ?_⟩
  · rw [roomy_iff]
    omega
  · rw [UserBuffer.writeable]
    omega

namespace Receiving

/-- The loop fills the `UserBuffer`, which has room for the bytes `s`. -/
structure Filing (s : List Byte) (r : Receiving) : Prop where
  invaild : r.extraBuffer.isVaild = false
  startBuffer : r.startBuffer = .user r.userBuffer.writeSpot
  length_le : r.length ≤ r.userBuffer.writeable
  readSpot_le : r.userBuffer.readSpot ≤ r.userBuffer.writeSpot
  roomy : Roomy r.userBuffer s

variable {heap : ℕ → Byte} {r : Receiving}

theorem filing_start {e : Extrabuf} {b : UserBuffer} {s : List Byte} (hextra : e.isVaild = false)
    (hle : b.readSpot ≤ b.writeSpot) (hroomy : Roomy b s) : Filing s (start e b) :=
  ⟨hextra, rfl, le_rfl, hle, hroomy⟩

/-- A turn whose bytes the `UserBuffer` receives without being full afterwards. -/
theorem turn_of_receive {block : List Byte} {b : UserBuffer}
    (hextra : r.extraBuffer.isVaild = false) (hstart : r.startBuffer = .user r.userBuffer.writeSpot)
    (hlength : block.length ≤ r.length) (hle : r.length ≤ r.userBuffer.writeable)
    (hreceive : r.userBuffer.receive block = .ok block.length b) (hsome : b.writeable ≠ 0) :
    turn heap (.bytes block) r = .ok true { r with
      userBuffer := b
      sum := r.sum + block.length
      length := r.length - block.length
      startBuffer := .user b.writeSpot } := by
  have hbound := r.userBuffer.writeSpot_le
  have hfits : r.userBuffer.writeSpot + block.length ≤ r.userBuffer.bufferSize := by
    unfold UserBuffer.writeable at hle
    omega
  rw [turn_bytes_eq hlength, accept_received hextra hstart hfits hreceive]
  unfold committed
  rw [if_neg hsome]

theorem turn_filing {block rest : List Byte} (hfiling : Filing (block ++ rest) r)
    (hlength : block.length ≤ r.length) :
    ∃ r', turn heap (.bytes block) r = .ok true r' ∧ Filing rest r' ∧
      r'.extraBuffer = r.extraBuffer ∧ Received r.userBuffer block r'.userBuffer := by
  obtain ⟨hextra, hstart, hle, hread, hroomy⟩ := hfiling
  obtain ⟨b, hreceive, hreceived, hroomy', hroom, hsome⟩ :=
    receive_of_roomy hread (hlength.trans hle) hroomy
  have hturn : turn heap (.bytes block) r = _ :=
    turn_of_receive hextra hstart hlength hle hreceive hsome
  refine ⟨_, hturn, ⟨hextra, rfl, ?_, hreceived.readSpot_le, hroomy'⟩, rfl, hreceived⟩
  dsimp only
  omega

/-- The loop of a call that finds room. -/
theorem drain_filing {answers : List Recv} (hfiling : Filing (streamed answers) r)
    (hlegal : Legal heap answers r) :
    ∃ r', drain heap answers r = .ok () r' ∧ r'.extraBuffer = r.extraBuffer ∧
      Received r.userBuffer (streamed answers) r'.userBuffer := by
  induction answers generalizing r with
  | nil => exact absurd hlegal id
  | cons answer rest ih =>
    cases answer with
    | bytes block =>
      obtain ⟨-, hlength, hnext⟩ := hlegal
      have hfiling' : Filing (block ++ streamed rest) r := hfiling
      obtain ⟨r₁, hturn, hfiling₁, hextra₁, hreceived₁⟩ := turn_filing hfiling' hlength
      obtain ⟨r', hdrain, hextra, hreceived⟩ := ih hfiling₁ (hnext r₁ hturn)
      refine ⟨r', ?_, hextra.trans hextra₁, hreceived₁.trans hreceived⟩
      rw [drain_cons_of_true hturn, hdrain]
    | eintr =>
      obtain ⟨r', hdrain, hafter⟩ := ih hfiling hlegal
      refine ⟨r', ?_, hafter⟩
      rw [drain_cons_of_true (show turn heap .eintr r = .ok true r from rfl), hdrain]
    | eagain =>
      cases rest with
      | nil => exact ⟨r, rfl, rfl, Received.refl hfiling.readSpot_le⟩
      | cons _ _ => exact absurd hlegal id
    | zero => exact absurd hlegal id
    | failed => exact absurd hlegal id

/-- The loop has gone over to the `Extrabuf`, whose array is as large as it should be. -/
structure Spilling (r : Receiving) : Prop where
  allocated : r.extraBuffer.allocated = r.extraBuffer.bufferSize
  peek : ∃ n : ℕ, r.extraBuffer.extrabufPeek = n ∧ r.startBuffer = .extra n ∧
    n + r.length ≤ r.extraBuffer.bufferSize

theorem Spilling.isVaild (hspilling : Spilling r) : r.extraBuffer.isVaild = true := by
  obtain ⟨n, hpeek, -⟩ := hspilling.peek
  unfold Extrabuf.isVaild
  rw [hpeek]
  exact decide_eq_true (by omega)

/-- The `UserBuffer` is not touched any more. -/
theorem turn_spilling {block : List Byte} (hspilling : Spilling r)
    (hlength : block.length ≤ r.length) :
    ∃ more r', turn heap (.bytes block) r = .ok more r' ∧ Spilling r' ∧
      r'.userBuffer = r.userBuffer := by
  obtain ⟨hallocated, n, hpeek, hstart, hroom⟩ := hspilling
  have hnext : r.extraBuffer.extrabufPeek + (block.length : ℤ) = (n + block.length : ℕ) := by
    rw [hpeek, Nat.cast_add]
  rw [turn_bytes_eq hlength, accept_extra hpeek hstart (by omega)]
  unfold commitExtra
  dsimp only
  split_ifs with hfull hmark
  · refine ⟨_, _, rfl, ⟨hallocated, n + block.length, hnext, ?_, ?_⟩, rfl⟩
    · simp only [Extrabuf.getPtr, Extrabuf.write, hnext, Int.toNat_natCast]
    · simp only [Extrabuf.write]
      omega
  · simp only [Extrabuf.writeAble, Extrabuf.write, hnext] at hfull
    refine ⟨_, _, rfl, ⟨rfl, n + block.length, hnext, ?_, ?_⟩, rfl⟩
    · simp only [Extrabuf.getPtr, Extrabuf.reset, Extrabuf.write, hnext, Int.toNat_natCast]
    · simp only [Extrabuf.writeAble, Extrabuf.reset, Extrabuf.write, hnext]
      omega
  · refine ⟨_, _, rfl, ⟨hallocated, n + block.length, hnext, ?_, ?_⟩, rfl⟩
    · simp only [Extrabuf.getPtr, Extrabuf.write, hnext, Int.toNat_natCast]
    · simp only [Extrabuf.write]
      omega

theorem drain_cons_of_false {answer : Recv} {rest : List Recv} {r' : Receiving}
    (hturn : turn heap answer r = .ok false r') : drain heap (answer :: rest) r = .ok () r' := by
  simp only [drain, Op.bind_of_ok hturn, Bool.false_eq_true, if_false]
  rfl

theorem drain_spilling {answers : List Recv} (hspilling : Spilling r)
    (hlegal : Legal heap answers r) :
    ∃ r', drain heap answers r = .ok () r' ∧ Spilling r' ∧ r'.userBuffer = r.userBuffer := by
  induction answers generalizing r with
  | nil => exact absurd hlegal id
  | cons answer rest ih =>
    cases answer with
    | bytes block =>
      obtain ⟨-, hlength, hnext⟩ := hlegal
      obtain ⟨more, r₁, hturn, hspilling₁, hsame⟩ := @turn_spilling heap r block hspilling hlength
      cases more with
      | false => exact ⟨r₁, drain_cons_of_false hturn, hspilling₁, hsame⟩
      | true =>
        obtain ⟨r', hdrain, hlast, hsame'⟩ := ih hspilling₁ (hnext r₁ hturn)
        rw [drain_cons_of_true hturn]
        exact ⟨r', hdrain, hlast, hsame'.trans hsame⟩
    | eintr =>
      rw [drain_cons_of_true (show turn heap .eintr r = .ok true r from rfl)]
      exact ih hspilling hlegal
    | eagain =>
      cases rest with
      | nil => exact ⟨r, rfl, hspilling, rfl⟩
      | cons _ _ => exact absurd hlegal id
    | zero => exact absurd hlegal id
    | failed => exact absurd hlegal id

/-- The loop fills the `UserBuffer`, and the `Extrabuf` has not grown. -/
structure Storing (r : Receiving) : Prop where
  invaild : r.extraBuffer.isVaild = false
  bufferSize : r.extraBuffer.bufferSize = bufferLength
  startBuffer : r.startBuffer = .user r.userBuffer.writeSpot
  length_le : r.length ≤ r.userBuffer.writeable
  readSpot_le : r.userBuffer.readSpot ≤ r.userBuffer.writeSpot

/-- A chunk goes to the `UserBuffer`; if it fills it, the next one goes to the `Extrabuf`. -/
theorem turn_storing {block : List Byte} (hstoring : Storing r)
    (hlength : block.length ≤ r.length) :
    ∃ r', turn heap (.bytes block) r = .ok true r' ∧
      Received r.userBuffer block r'.userBuffer ∧
      (Storing r' ∧ r'.extraBuffer = r.extraBuffer ∨
        Spilling r' ∧ r'.userBuffer.writeable = 0) := by
  obtain ⟨hextra, hsize, hstart, hle, hread⟩ := hstoring
  obtain ⟨b, hreceive, hreceived, hwrite⟩ := receive_of_fits hread (hlength.trans hle)
  have hroom := writeable_le_of_receive hreceived hwrite
  have hfits : r.userBuffer.writeSpot + block.length ≤ r.userBuffer.bufferSize := by
    have hbound := r.userBuffer.writeSpot_le
    unfold UserBuffer.writeable at hle
    omega
  rw [turn_bytes_eq hlength, accept_received hextra hstart hfits hreceive]
  refine ⟨_, rfl, ?_⟩
  unfold committed
  dsimp only
  by_cases hnone : b.writeable = 0
  · rw [if_pos hnone]
    refine ⟨hreceived, .inr ⟨⟨hsize.symm, 0, rfl, rfl, ?_⟩, hnone⟩⟩
    simp [Extrabuf.init, Extrabuf.writeAble]
  · rw [if_neg hnone]
    refine ⟨hreceived, .inl ⟨⟨hextra, hsize, rfl, ?_, hreceived.readSpot_le⟩, rfl⟩⟩
    dsimp only
    omega

/-- The loop of a call: the `UserBuffer` receives the bytes up to the one that fills it. -/
theorem drain_storing {answers : List Recv} (hstoring : Storing r)
    (hlegal : Legal heap answers r) :
    ∃ r' first rest, drain heap answers r = .ok () r' ∧ streamed answers = first ++ rest ∧
      Received r.userBuffer first r'.userBuffer ∧
      (rest = [] ∧ r'.extraBuffer = r.extraBuffer ∨
        r'.extraBuffer.isVaild = true ∧ r'.userBuffer.writeable = 0) := by
  induction answers generalizing r with
  | nil => exact absurd hlegal id
  | cons answer later ih =>
    cases answer with
    | bytes block =>
      obtain ⟨-, hlength, hnext⟩ := hlegal
      obtain ⟨r₁, hturn, hreceived₁, hafter⟩ := @turn_storing heap r block hstoring hlength
      rw [drain_cons_of_true hturn]
      rcases hafter with ⟨hstoring₁, hextra₁⟩ | ⟨hspilling₁, hnone⟩
      · obtain ⟨r', first, rest, hdrain, hstream, hreceived, hlast⟩ :=
          ih hstoring₁ (hnext r₁ hturn)
        rw [hextra₁] at hlast
        refine ⟨r', block ++ first, rest, hdrain, ?_, hreceived₁.trans hreceived, hlast⟩
        rw [List.append_assoc, ← hstream]
        rfl
      · obtain ⟨r', hdrain, hlast, hsame⟩ := drain_spilling hspilling₁ (hnext r₁ hturn)
        rw [← hsame] at hreceived₁ hnone
        exact ⟨r', block, streamed later, hdrain, rfl, hreceived₁, .inr ⟨hlast.isVaild, hnone⟩⟩
    | eintr =>
      rw [drain_cons_of_true (show turn heap .eintr r = .ok true r from rfl)]
      exact ih hstoring hlegal
    | eagain =>
      cases later with
      | nil => exact ⟨r, [], [], rfl, rfl, Received.refl hstoring.readSpot_le, .inl ⟨rfl, rfl⟩⟩
      | cons _ _ => exact absurd hlegal id
    | zero => exact absurd hlegal id
    | failed => exact absurd hlegal id

/-- A call to which nothing is delivered. -/
theorem drain_silent {answers : List Recv} (hnone : streamed answers = [])
    (hlegal : Legal heap answers r) : drain heap answers r = .ok () r := by
  induction answers with
  | nil => exact absurd hlegal id
  | cons answer rest ih =>
    cases answer with
    | bytes block => exact absurd (List.append_eq_nil_iff.mp hnone).1 hlegal.1
    | eintr =>
      rw [drain_cons_of_true (show turn heap .eintr r = .ok true r from rfl)]
      exact ih hnone hlegal
    | eagain =>
      cases rest with
      | nil => rfl
      | cons _ _ => exact absurd hlegal id
    | zero => exact absurd hlegal id
    | failed => exact absurd hlegal id

end Receiving

/-- A call of `Read` that gets all bytes at once. -/
theorem Socket.read_one {heap : ℕ → Byte} {block : List Byte} {e : Extrabuf} {b b' : UserBuffer}
    (hextra : e.isVaild = false) (hfits : block.length ≤ b.writeable)
    (hreceive : b.receive block = .ok block.length b') (hsome : b'.writeable ≠ 0) :
    ∃ sum, Socket.read heap [.bytes block, .eagain] (e, b) = .ok sum (e, b') := by
  have hturn : Receiving.turn heap (.bytes block) (Receiving.start e b) = .ok true _ :=
    Receiving.turn_of_receive hextra rfl hfits le_rfl hreceive hsome
  have hdrain : Receiving.drain heap [.bytes block, .eagain] (Receiving.start e b) = .ok () _ :=
    (Receiving.drain_cons_of_true hturn).trans rfl
  exact ⟨_, Socket.read_of_drain hdrain⟩

/-- A call of `Read` that finds room. -/
theorem Socket.read_roomy {heap : ℕ → Byte} {answers : List Recv} {e : Extrabuf} {b : UserBuffer}
    (hextra : e.isVaild = false) (hle : b.readSpot ≤ b.writeSpot)
    (hroomy : Roomy b (streamed answers))
    (hlegal : Receiving.Legal heap answers (Receiving.start e b)) :
    ∃ sum b', Socket.read heap answers (e, b) = .ok sum (e, b') ∧
      Received b (streamed answers) b' := by
  obtain ⟨r, hdrain, hsame, hreceived⟩ :=
    Receiving.drain_filing (Receiving.filing_start hextra hle hroomy) hlegal
  have hsame' : r.extraBuffer = e := hsame
  refine ⟨r.sum, r.userBuffer, ?_, hreceived⟩
  rw [Socket.read_of_drain hdrain, hsame']

/-- What a call of `Read` on buffers `e` and `b` has done with the bytes `s`: the `UserBuffer` has
received the first of them, and if there are others the `Extrabuf` is in use, which it is only
behind a full `UserBuffer`. -/
structure Arrived (e : Extrabuf) (b : UserBuffer) (s : List Byte) (e' : Extrabuf)
    (b' : UserBuffer) : Prop where
  received : ∃ first rest, s = first ++ rest ∧ Received b first b' ∧
    (e.isVaild = true → first = []) ∧ (e'.isVaild = false → rest = [])
  idle : e'.isVaild = false → e' = e
  full : e'.isVaild = true → b'.writeable = 0
  vaild : e.isVaild = true → e' = e ∧ s = []
  silent : s = [] → e' = e ∧ b' = b

/-- A call of `Read` returns, unless the `Extrabuf` has grown before. -/
theorem Socket.read_arrived {heap : ℕ → Byte} {answers : List Recv} {e : Extrabuf} {b : UserBuffer}
    (hidle : e.isVaild = false → e.bufferSize = bufferLength)
    (hfull : e.isVaild = true → b.writeable = 0)
    (hle : b.readSpot ≤ b.writeSpot)
    (hlegal : Receiving.Legal heap answers (Receiving.start e b)) :
    ∃ sum e' b', Socket.read heap answers (e, b) = .ok sum (e', b') ∧
      Arrived e b (streamed answers) e' b' := by
  by_cases hvaild : e.isVaild = true
  · obtain ⟨hdrain, hnone⟩ := Receiving.drain_idle (hfull hvaild) hlegal
    refine ⟨_, _, _, Socket.read_of_drain hdrain, ?_⟩
    rw [hnone]
    exact ⟨⟨[], [], rfl, Received.refl hle, fun _ ↦ rfl, fun _ ↦ rfl⟩, fun _ ↦ rfl, hfull,
      fun _ ↦ ⟨rfl, rfl⟩, fun _ ↦ ⟨rfl, rfl⟩⟩
  · have hinvaild : e.isVaild = false := by simpa using hvaild
    obtain ⟨r, first, rest, hdrain, hstream, hreceived, hend⟩ :=
      Receiving.drain_storing ⟨hinvaild, hidle hinvaild, rfl, le_rfl, hle⟩ hlegal
    refine ⟨_, _, _, Socket.read_of_drain hdrain, ⟨first, rest, hstream, hreceived,
      fun h ↦ absurd h hvaild, fun hnot ↦ ?_⟩, fun hnot ↦ ?_, fun hvaild' ↦ ?_,
      fun h ↦ absurd h hvaild, fun hnone ↦ ?_⟩
    · rcases hend with ⟨hrest, -⟩ | ⟨hvaild', -⟩
      · exact hrest
      · exact absurd (hnot.symm.trans hvaild') Bool.false_ne_true
    · rcases hend with ⟨-, hextra⟩ | ⟨hvaild', -⟩
      · exact hextra
      · exact absurd (hnot.symm.trans hvaild') Bool.false_ne_true
    · rcases hend with ⟨-, hextra⟩ | ⟨-, hnone⟩
      · rw [hextra] at hvaild'
        exact absurd hvaild' hvaild
      · exact hnone
    · rw [Receiving.drain_silent hnone hlegal] at hdrain
      cases hdrain
      exact ⟨rfl, rfl⟩

end LWebServer
