import LWebServer.FastCgi.Reading

/-!
# The reply that is read

The records of a reply are read one by one up to the record that ends it. `ReadContent` does not
read the content of this one, because the branch that is meant for it tests for another type, and
takes it for a header.
-/

namespace LWebServer

open FastCgi

/-- A reply: output on the two streams and a record that ends the request. -/
structure Reply where
  outputs : List Packet
  last : Packet
  outputs_kind : ∀ p ∈ outputs, p.kind.toNat = fcgiStdout ∨ p.kind.toNat = fcgiStderr
  last_kind : last.kind.toNat = fcgiEndRequest
  last_length : last.content.length = 8

namespace Reply

def packets (reply : Reply) : List Packet := reply.outputs ++ [reply.last]

def bytes (reply : Reply) : List Byte := reply.packets.flatMap Packet.bytes

/-- What the program has written to its standard output. -/
def stdout (reply : Reply) : List Byte :=
  (reply.outputs.filter fun p ↦ p.kind.toNat = fcgiStdout).flatMap Packet.content

end Reply

namespace FastCgi

/-- The records of a stream, each with all that follows. -/
def starts : List Packet → List (List Byte)
  | [] => []
  | p :: packets => (p :: packets).flatMap Packet.bytes :: starts packets

/-- `ReadContent` returns the standard output, and what it reads as headers are the records and
nothing else. -/
def Reads (reply : Reply) (s : FastCgi) : Prop :=
  ∃ s', readContent { s with received := reply.bytes } = .ok reply.stdout s' ∧
    s'.headers = s.headers ++ starts reply.packets ∧ s'.received = []

/-- `Content` with so many bytes read into it. -/
def filled (content : List Byte) : List Byte :=
  content ++ List.replicate (contentBufferLen - content.length) 0

variable {p : Packet} {more rest content : List Byte} {s s' : FastCgi} {r r' : Reading}

theorem readExactly_eq_ok {size : ℕ} {got a : List Byte} (hreceived : s.received = got ++ rest) :
    readExactly size got.length s = .ok a s' ↔
      got.length ≤ size ∧ a = got ∧ s' = { s with received := rest } := by
  have htake : s.received.take got.length = got := by rw [hreceived, List.take_left]
  have hdrop : s.received.drop got.length = rest := by rw [hreceived, List.drop_left]
  have hread : read got.length s = .ok got { s with received := rest } := by
    change EStateM.Result.ok (s.received.take got.length)
      { s with received := s.received.drop got.length } = _
    rw [htake, hdrop]
  unfold readExactly
  rw [bind_eq_ok]
  constructor
  · rintro ⟨_, _, hfirst, hok⟩
    rw [hread] at hfirst
    cases hfirst
    split at hok
    next => cases hok
    next hsize =>
      split at hok <;> cases hok
      exact ⟨by omega, rfl, rfl⟩
  · rintro ⟨hsize, rfl, rfl⟩
    refine ⟨a, _, hread, ?_⟩
    rw [if_neg (by omega), if_neg (by simp)]
    rfl

theorem readBody_eq_ok {a : List Byte} (hreceived : s.received = p.content ++ rest) :
    readBody ⟨p.header ++ more, content⟩ s = .ok a s' ↔
      p.content.length ≤ contentBufferLen ∧ a = filled p.content ∧
        s' = { s with received := rest } := by
  have hrun : readBody ⟨p.header ++ more, content⟩ s =
      (readExactly contentBufferLen (twoBytes (UInt8.ofNat (p.content.length / 256))
        (UInt8.ofNat p.content.length)) >>= fun got ↦ pure (filled got) : Call _) s := rfl
  rw [hrun, twoBytes_ofNat p.content_lt, bind_eq_ok]
  constructor
  · rintro ⟨got, t, hfirst, hok⟩
    obtain ⟨hsize, rfl, rfl⟩ := (readExactly_eq_ok hreceived).mp hfirst
    cases hok
    exact ⟨hsize, rfl, rfl⟩
  · rintro ⟨hsize, rfl, rfl⟩
    exact ⟨p.content, _, (readExactly_eq_ok hreceived).mpr ⟨hsize, rfl, rfl⟩, rfl⟩

theorem readPadding_eq_ok (hreceived : s.received = p.padding ++ rest) :
    readPadding ⟨p.header ++ more, content⟩ s = .ok () s' ↔
      p.padding.length ≤ trashLen ∧ s' = { s with received := rest } := by
  have hlength : (UInt8.ofNat p.padding.length).toNat = p.padding.length := by
    rw [UInt8.toNat_ofNat', Nat.mod_eq_of_lt p.padding_lt]
  have hrun : readPadding ⟨p.header ++ more, content⟩ s =
      (if 0 < (UInt8.ofNat p.padding.length).toNat then
        readExactly trashLen (UInt8.ofNat p.padding.length).toNat >>= fun _ ↦ pure ()
      else pure () : Call Unit) s := rfl
  rw [hrun, hlength]
  split
  next =>
    rw [bind_eq_ok]
    constructor
    · rintro ⟨got, t, hfirst, hok⟩
      obtain ⟨hsize, rfl, rfl⟩ := (readExactly_eq_ok hreceived).mp hfirst
      cases hok
      exact ⟨hsize, rfl⟩
    · rintro ⟨hsize, rfl⟩
      exact ⟨p.padding, _, (readExactly_eq_ok hreceived).mpr ⟨hsize, rfl, rfl⟩, rfl⟩
  next hnone =>
    have hempty : p.padding = [] := List.eq_nil_of_length_eq_zero (by omega)
    rw [hempty, List.nil_append] at hreceived
    subst hreceived
    constructor
    · intro hok
      cases hok
      exact ⟨by omega, rfl⟩
    · rintro ⟨-, rfl⟩
      rfl

/-- `GetContent` does nothing but set a flag. -/
theorem getContent_frame {data : List Byte} (hok : getContent data s = .ok () s') :
    ∃ flag, s' = { s with htmlFlag := flag } := by
  unfold getContent at hok
  split at hok
  next =>
    cases hok
    exact ⟨s.htmlFlag, rfl⟩
  next =>
    split at hok
    next => cases hok
    next =>
      cases hok
      exact ⟨s.htmlFlag, rfl⟩
    next =>
      split at hok <;> cases hok
      exact ⟨true, rfl⟩

theorem findStart_of_zero {data : List Byte} (hzero : 0 ∈ data) :
    findStart data = .ok none ∨ ∃ pt, findStart data = .ok (some pt) ∧ 0 ∈ pt := by
  induction data with
  | nil => cases hzero
  | cons ch data ih =>
    rw [findStart]
    by_cases hend : ch = 0
    · exact .inl (if_pos hend)
    · have hrest : 0 ∈ data := (List.mem_cons.mp hzero).resolve_left fun hch ↦ hend hch.symm
      rw [if_neg hend]
      split
      · exact .inr ⟨ch :: data, rfl, List.mem_cons_of_mem ch hrest⟩
      · exact ih hrest

/-- `GetContent` returns if there is a NUL in the array. -/
theorem getContent_of_zero {data : List Byte} (hzero : 0 ∈ data) (s : FastCgi) :
    ∃ flag, getContent data s = .ok () { s with htmlFlag := flag } := by
  unfold getContent
  split
  · exact ⟨s.htmlFlag, rfl⟩
  · rcases findStart_of_zero hzero with hfind | ⟨pt, hfind, hpt⟩
    · rw [hfind]
      exact ⟨s.htmlFlag, rfl⟩
    · rw [hfind]
      exact ⟨true, if_pos hpt⟩

/-- What the body of the loop does with output, on either stream. -/
theorem readRecord_eq (s : FastCgi) (p : Packet) (more content : List Byte) :
    readRecord ⟨p.header ++ more, content⟩ s =
      (if p.kind.toNat = fcgiStdout then
        readBody ⟨p.header ++ more, content⟩ >>= fun got ↦ getContent got >>= fun _ ↦
          readPadding ⟨p.header ++ more, content⟩ >>= fun _ ↦ pure ⟨p.header ++ more, got⟩
      else if p.kind.toNat = fcgiStderr then
        readBody ⟨p.header ++ more, content⟩ >>= fun got ↦
          readPadding ⟨p.header ++ more, content⟩ >>= fun _ ↦ pure ⟨p.header ++ more, got⟩
      else if p.kind.toNat = fcgiStderr then
        readExactly 8 8 >>= fun _ ↦ pure ⟨p.header ++ more, content⟩
      else pure ⟨p.header ++ more, content⟩ : Call Reading) s := rfl

theorem readRecord_output
    (hkind : p.kind.toNat = fcgiStdout ∨ p.kind.toNat = fcgiStderr)
    (hreceived : s.received = p.content ++ (p.padding ++ rest))
    (hok : readRecord ⟨p.header ++ more, content⟩ s = .ok r' s') :
    r' = ⟨p.header ++ more, filled p.content⟩ ∧ s'.received = rest ∧ s'.headers = s.headers := by
  rw [readRecord_eq] at hok
  rcases hkind with hkind | hkind
  · rw [if_pos hkind, bind_eq_ok] at hok
    obtain ⟨got, t, hbody, hok⟩ := hok
    obtain ⟨-, rfl, rfl⟩ := (readBody_eq_ok hreceived).mp hbody
    obtain ⟨t, hget, hok⟩ := seq_eq_ok.mp hok
    obtain ⟨flag, rfl⟩ := getContent_frame hget
    obtain ⟨t, hpadding, hok⟩ := seq_eq_ok.mp hok
    obtain ⟨-, rfl⟩ := (readPadding_eq_ok rfl).mp hpadding
    cases hok
    exact ⟨rfl, rfl, rfl⟩
  · rw [if_neg (by rw [hkind]; decide), if_pos hkind, bind_eq_ok] at hok
    obtain ⟨got, t, hbody, hok⟩ := hok
    obtain ⟨-, rfl, rfl⟩ := (readBody_eq_ok hreceived).mp hbody
    obtain ⟨t, hpadding, hok⟩ := seq_eq_ok.mp hok
    obtain ⟨-, rfl⟩ := (readPadding_eq_ok rfl).mp hpadding
    cases hok
    exact ⟨rfl, rfl, rfl⟩

/-- Output that leaves room for a NUL in `Content`, with padding that fits in `Trash`. -/
def Small (p : Packet) : Prop :=
  p.content.length < contentBufferLen ∧ p.padding.length ≤ trashLen

theorem zero_mem_filled (hsmall : Small p) : 0 ∈ filled p.content := by
  refine List.mem_append_right _ (List.mem_replicate.mpr ⟨?_, rfl⟩)
  have hroom := hsmall.1
  omega

theorem readRecord_small (hkind : p.kind.toNat = fcgiStdout ∨ p.kind.toNat = fcgiStderr)
    (hreceived : s.received = p.content ++ (p.padding ++ rest)) (hsmall : Small p) :
    ∃ s', readRecord ⟨p.header ++ more, content⟩ s =
      .ok ⟨p.header ++ more, filled p.content⟩ s' := by
  have hbody : readBody ⟨p.header ++ more, content⟩ s =
      .ok (filled p.content) { s with received := p.padding ++ rest } :=
    (readBody_eq_ok hreceived).mpr ⟨hsmall.1.le, rfl, rfl⟩
  rw [readRecord_eq]
  rcases hkind with hkind | hkind
  · obtain ⟨flag, hget⟩ := getContent_of_zero (zero_mem_filled hsmall)
      { s with received := p.padding ++ rest }
    rw [if_pos hkind]
    refine ⟨_, bind_eq_ok.mpr ⟨_, _, hbody, seq_eq_ok.mpr ⟨_, hget, seq_eq_ok.mpr
      ⟨_, (readPadding_eq_ok rfl).mpr ⟨hsmall.2, rfl⟩, rfl⟩⟩⟩⟩
  · rw [if_neg (by rw [hkind]; decide), if_pos hkind]
    exact ⟨_, bind_eq_ok.mpr ⟨_, _, hbody, seq_eq_ok.mpr
      ⟨_, (readPadding_eq_ok rfl).mpr ⟨hsmall.2, rfl⟩, rfl⟩⟩⟩

/-- What the body of the loop does with any other record: nothing, not even with the record that
ends the request. -/
theorem readRecord_other {type : Byte} (htype : r.parsering[1]? = some type)
    (hstdout : type.toNat ≠ fcgiStdout) (hstderr : type.toNat ≠ fcgiStderr) :
    readRecord r s = .ok r s := by
  have hfield : field r 1 = pure type := by rw [field, htype]
  rw [readRecord, hfield, pure_bind, if_neg hstdout, if_neg hstderr, if_neg hstderr]
  rfl

/-! ## The loop -/

theorem readRecords_nil (hreceived : s.received = []) : readRecords r s = .ok r s := by
  rw [readRecords, dif_pos hreceived]

theorem readRecords_eq_ok (hne : s.received ≠ []) :
    readRecords r s = .ok r' s' ↔ ∃ r₁ s₁,
      readRecord (nextHeader r s).1 (nextHeader r s).2 = .ok r₁ s₁ ∧
        readRecords r₁ s₁ = .ok r' s' := by
  rw [readRecords, dif_neg hne]
  split
  next hrecord => simp [hrecord]
  next r₁ s₁ hrecord => simp [hrecord]

theorem readRecords_of_record {r₁ : Reading} {s₁ : FastCgi} (hne : s.received ≠ [])
    (hrecord : readRecord (nextHeader r s).1 (nextHeader r s).2 = .ok r₁ s₁) :
    readRecords r s = readRecords r₁ s₁ := by
  rw [readRecords, dif_neg hne]
  split
  next hfault =>
    rw [hrecord] at hfault
    cases hfault
  next hrecord' =>
    rw [hrecord] at hrecord'
    cases hrecord'
    rfl

theorem headers_readRecords (hok : readRecords r s = .ok r' s') : s.headers <+: s'.headers := by
  induction hlength : s.received.length using Nat.strong_induction_on generalizing r s with
  | _ length ih =>
    by_cases hempty : s.received = []
    · rw [readRecords_nil hempty] at hok
      cases hok
      exact List.prefix_rfl
    · obtain ⟨r₁, s₁, hrecord, hrest⟩ := (readRecords_eq_ok hempty).mp hok
      obtain ⟨hsuffix, hheaders⟩ := consumes_readRecord _ _ _ _ hrecord
      have hless : s₁.received.length < length := by
        have hle := hsuffix.length_le
        have hpos := List.length_pos_iff.mpr hempty
        simp only [nextHeader, List.length_drop, fcgiHeaderLen] at hle
        omega
      have hstep : s.headers <+: s₁.headers := hheaders ▸ List.prefix_append s.headers [s.received]
      exact hstep.trans (ih _ hless hrest rfl)

theorem nextHeader_bytes (hreceived : s.received = p.bytes ++ rest) :
    nextHeader r s = (⟨p.header ++ r.parsering.drop 8, r.content⟩,
      { s with
        received := p.content ++ (p.padding ++ rest)
        headers := s.headers ++ [p.bytes ++ rest] }) := by
  have hsplit : s.received = p.header ++ (p.content ++ (p.padding ++ rest)) := by
    rw [hreceived, Packet.bytes, List.append_assoc, List.append_assoc]
  have htake : s.received.take fcgiHeaderLen = p.header := by
    rw [hsplit]
    exact List.take_left' rfl
  have hdrop : s.received.drop fcgiHeaderLen = p.content ++ (p.padding ++ rest) := by
    rw [hsplit]
    exact List.drop_left' rfl
  rw [nextHeader, htake, hdrop, hreceived]
  rfl

/-- One turn of the loop for a record of output. -/
theorem readRecords_output
    (hkind : p.kind.toNat = fcgiStdout ∨ p.kind.toNat = fcgiStderr)
    (hreceived : s.received = p.bytes ++ rest) (hok : readRecords r s = .ok r' s') :
    ∃ r₁ s₁, s₁.received = rest ∧ s₁.headers = s.headers ++ [p.bytes ++ rest] ∧
      r₁.content = filled p.content ∧ readRecords r₁ s₁ = .ok r' s' := by
  have hne : s.received ≠ [] := by
    rw [hreceived]
    simp [Packet.bytes, Packet.header]
  obtain ⟨r₁, s₁, hrecord, hrest⟩ := (readRecords_eq_ok hne).mp hok
  rw [nextHeader_bytes hreceived] at hrecord
  obtain ⟨rfl, hreceived₁, hheaders₁⟩ := readRecord_output hkind rfl hrecord
  exact ⟨_, s₁, hreceived₁, hheaders₁, rfl, hrest⟩

/-- The turns of the loop for all output. -/
theorem readRecords_outputs {outputs : List Packet}
    (hkinds : ∀ p ∈ outputs, p.kind.toNat = fcgiStdout ∨ p.kind.toNat = fcgiStderr)
    (hreceived : s.received = outputs.flatMap Packet.bytes ++ rest)
    (hok : readRecords r s = .ok r' s') :
    ∃ r₁ s₁, s₁.received = rest ∧ s₁.headers.length = s.headers.length + outputs.length ∧
      readRecords r₁ s₁ = .ok r' s' := by
  induction outputs generalizing r s with
  | nil => exact ⟨r, s, hreceived, rfl, hok⟩
  | cons p outputs ih =>
    obtain ⟨hkind, hothers⟩ := List.forall_mem_cons.mp hkinds
    rw [List.flatMap_cons, List.append_assoc] at hreceived
    obtain ⟨r₁, s₁, hreceived₁, hheaders₁, -, hok₁⟩ := readRecords_output hkind hreceived hok
    obtain ⟨r₂, s₂, hreceived₂, hheaders₂, hok₂⟩ := ih hothers hreceived₁ hok₁
    refine ⟨r₂, s₂, hreceived₂, ?_, hok₂⟩
    rw [hheaders₂, hheaders₁, List.length_append, List.length_singleton, List.length_cons]
    omega

/-- At the record that ends the request nothing but the header is read, so that the next header is
read where the content of this record begins. -/
theorem readRecords_last (hstdout : p.kind.toNat ≠ fcgiStdout)
    (hstderr : p.kind.toNat ≠ fcgiStderr) (hreceived : s.received = p.bytes) (r : Reading) :
    ∃ r₁ s₁, readRecords r s = readRecords r₁ s₁ ∧ s₁.received = p.content ++ p.padding ∧
      s₁.headers = s.headers ++ [p.bytes] ∧ r₁.content = r.content := by
  have hne : s.received ≠ [] := by
    rw [hreceived]
    simp [Packet.bytes, Packet.header]
  have hnext : nextHeader r s = (⟨p.header ++ r.parsering.drop 8, r.content⟩,
      { s with
        received := p.content ++ p.padding
        headers := s.headers ++ [p.bytes] }) := by
    have hbytes := nextHeader_bytes (r := r) (hreceived.trans (List.append_nil _).symm)
    rwa [List.append_nil, List.append_nil] at hbytes
  have htype : (nextHeader r s).1.parsering[1]? = some p.kind := by
    rw [hnext]
    rfl
  refine ⟨_, _, readRecords_of_record hne (readRecord_other htype hstdout hstderr), ?_, ?_, ?_⟩ <;>
    rw [hnext]

theorem length_starts (packets : List Packet) : (starts packets).length = packets.length := by
  induction packets with
  | nil => rfl
  | cons p packets ih => rw [starts, List.length_cons, List.length_cons, ih]

/-- `ReadContent` reads more headers than there are records in a reply. -/
theorem length_headers {reply : Reply} (hreceived : s.received = reply.bytes)
    (hok : readRecords r s = .ok r' s') :
    s.headers.length + reply.packets.length < s'.headers.length := by
  have hkind := reply.last_kind
  have hsplit : s.received = reply.outputs.flatMap Packet.bytes ++ reply.last.bytes := by
    rw [hreceived, Reply.bytes, Reply.packets, List.flatMap_append, List.flatMap_singleton]
  obtain ⟨r₁, s₁, hreceived₁, hheaders₁, hok₁⟩ := readRecords_outputs reply.outputs_kind hsplit hok
  obtain ⟨r₂, s₂, heq, hreceived₂, hheaders₂, -⟩ :=
    readRecords_last (by rw [hkind]; decide) (by rw [hkind]; decide) hreceived₁ r₁
  have hne : s₂.received ≠ [] := by
    rw [hreceived₂]
    refine List.append_ne_nil_of_left_ne_nil (fun hempty ↦ ?_) _
    have hlength := reply.last_length
    rw [hempty] at hlength
    cases hlength
  obtain ⟨r₃, s₃, hrecord₃, hok₃⟩ := (readRecords_eq_ok hne).mp (heq ▸ hok₁)
  have hheaders₃ : s₃.headers = s₂.headers ++ [s₂.received] :=
    (consumes_readRecord _ _ _ _ hrecord₃).2
  have hle : s₃.headers.length ≤ s'.headers.length := (headers_readRecords hok₃).length_le
  rw [Reply.packets, List.length_append, List.length_singleton]
  rw [hheaders₃, hheaders₂, List.length_append, List.length_append, hheaders₁] at hle
  simp only [List.length_singleton] at hle
  omega

/-- For no reply does `ReadContent` read the content and the padding of each record and no more
before it goes on to the next header. -/
theorem not_reads (reply : Reply) (s : FastCgi) : ¬ Reads reply s := by
  rintro ⟨s', hok, hheaders, -⟩
  obtain ⟨r, t, hrecords, hok⟩ := bind_eq_ok.mp hok
  have hlength := length_headers rfl hrecords
  have ht : s'.headers = t.headers :=
    (consumes_ite (consumes_return _) (consumes_throw _) t _ s' hok).2
  rw [← ht, hheaders, List.length_append, length_starts] at hlength
  exact absurd hlength (lt_irrefl _)

/-! ## What is returned -/

theorem cString_filled (hsmall : Small p) : cString (filled p.content) = cString p.content := by
  have hroom : 0 < contentBufferLen - p.content.length := by
    have hlength := hsmall.1
    omega
  obtain ⟨zeros, hzeros⟩ := Nat.exists_eq_succ_of_ne_zero hroom.ne'
  rw [filled, hzeros, List.replicate_succ, cString_append_zero]

theorem readRecords_small {outputs : List Packet}
    (hkinds : ∀ p ∈ outputs, p.kind.toNat = fcgiStdout ∨ p.kind.toNat = fcgiStderr)
    (hsmall : ∀ p ∈ outputs, Small p)
    (hreceived : s.received = outputs.flatMap Packet.bytes ++ rest) (r : Reading) :
    ∃ r₁ s₁, readRecords r s = readRecords r₁ s₁ ∧ s₁.received = rest ∧
      r₁.content = (outputs.getLast?.elim r.content fun p ↦ filled p.content) := by
  induction outputs generalizing r s with
  | nil => exact ⟨r, s, rfl, hreceived, rfl⟩
  | cons p outputs ih =>
    obtain ⟨hkind, hkinds⟩ := List.forall_mem_cons.mp hkinds
    obtain ⟨hfirst, hothers⟩ := List.forall_mem_cons.mp hsmall
    rw [List.flatMap_cons, List.append_assoc] at hreceived
    have hne : s.received ≠ [] := by
      rw [hreceived]
      simp [Packet.bytes, Packet.header]
    have hturn : ∃ s₁, readRecord (nextHeader r s).1 (nextHeader r s).2 =
        .ok ⟨p.header ++ r.parsering.drop 8, filled p.content⟩ s₁ := by
      rw [nextHeader_bytes hreceived]
      exact readRecord_small hkind rfl hfirst
    obtain ⟨s₁, hrecord⟩ := hturn
    have hreceived₁ : s₁.received = outputs.flatMap Packet.bytes ++ rest := by
      rw [nextHeader_bytes hreceived] at hrecord
      exact (readRecord_output hkind rfl hrecord).2.1
    obtain ⟨r₂, s₂, heq, hreceived₂, hcontent₂⟩ :=
      ih hkinds hothers hreceived₁ ⟨p.header ++ r.parsering.drop 8, filled p.content⟩
    refine ⟨r₂, s₂, (readRecords_of_record hne hrecord).trans heq, hreceived₂, ?_⟩
    rw [hcontent₂, List.getLast?_cons]
    cases outputs.getLast? <;> rfl

/-- Of a reply to which the buffers are adequate, without padding at its end and with a status that
cannot be taken for output, `ReadContent` returns the output in the last record, up to a NUL. -/
theorem readContent_small (reply : Reply) (hsmall : ∀ p ∈ reply.outputs, Small p)
    (hpadding : reply.last.padding = []) {type : Byte} (htype : reply.last.content[1]? = some type)
    (hstdout : type.toNat ≠ fcgiStdout) (hstderr : type.toNat ≠ fcgiStderr) (s : FastCgi) :
    ∃ s', readContent { s with received := reply.bytes } =
      .ok (reply.outputs.getLast?.elim [] fun p ↦ cString p.content) s' := by
  have hkind := reply.last_kind
  have hsplit : reply.bytes = reply.outputs.flatMap Packet.bytes ++ reply.last.bytes := by
    rw [Reply.bytes, Reply.packets, List.flatMap_append, List.flatMap_singleton]
  obtain ⟨r₁, s₁, heq₁, hreceived₁, hcontent₁⟩ :=
    readRecords_small (s := { s with received := reply.bytes }) reply.outputs_kind hsmall hsplit
      ⟨[], List.replicate contentBufferLen 0⟩
  obtain ⟨r₂, s₂, heq₂, hreceived₂, -, hcontent₂⟩ :=
    readRecords_last (by rw [hkind]; decide) (by rw [hkind]; decide) hreceived₁ r₁
  rw [hpadding, List.append_nil] at hreceived₂
  -- the content of the last record is read as one more header, and the stream ends
  have hne : s₂.received ≠ [] := by
    rw [hreceived₂]
    exact List.ne_nil_of_length_pos (by rw [reply.last_length]; decide)
  have htype₃ : (nextHeader r₂ s₂).1.parsering[1]? = some type := by
    change (s₂.received.take 8 ++ _)[1]? = some type
    have hlength := reply.last_length
    rw [hreceived₂, List.take_of_length_le (by omega), List.getElem?_append_left (by omega), htype]
  have hreceived₃ : (nextHeader r₂ s₂).2.received = [] := by
    change s₂.received.drop 8 = []
    rw [hreceived₂, List.drop_eq_nil_iff, reply.last_length]
  have hread : readRecords ⟨[], List.replicate contentBufferLen 0⟩
      { s with received := reply.bytes } = .ok (nextHeader r₂ s₂).1 (nextHeader r₂ s₂).2 := by
    rw [heq₁, heq₂, readRecords_of_record hne (readRecord_other htype₃ hstdout hstderr),
      readRecords_nil hreceived₃]
  have hcontent : (nextHeader r₂ s₂).1.content =
      reply.outputs.getLast?.elim (List.replicate contentBufferLen 0) fun p ↦ filled p.content :=
    hcontent₂.trans hcontent₁
  have hreturn : 0 ∈ (nextHeader r₂ s₂).1.content ∧ cString (nextHeader r₂ s₂).1.content =
      reply.outputs.getLast?.elim [] fun p ↦ cString p.content := by
    rw [hcontent]
    cases hlast : reply.outputs.getLast? with
    | none => exact ⟨List.mem_replicate.mpr ⟨by decide, rfl⟩, rfl⟩
    | some p =>
      have hp : Small p := hsmall p (List.mem_of_getLast? hlast)
      exact ⟨zero_mem_filled hp, cString_filled hp⟩
  refine ⟨(nextHeader r₂ s₂).2, bind_eq_ok.mpr ⟨_, _, hread, ?_⟩⟩
  rw [if_pos hreturn.1, hreturn.2]
  rfl

/-- The reply of a program that writes its output in two records. -/
def twoOutputs : Reply where
  outputs := [⟨6, 0, 1, 0, [97], [], by decide, by decide⟩,
    ⟨6, 0, 1, 0, [98], [], by decide, by decide⟩]
  last := ⟨3, 0, 1, 0, List.replicate 8 0, [], by decide, by decide⟩
  outputs_kind := by decide
  last_kind := by decide
  last_length := by decide

/-- The first of two records is lost. -/
theorem not_reads_two : ¬ Reads twoOutputs (new []) := by
  rintro ⟨s', hok, -⟩
  obtain ⟨t, hread⟩ := readContent_small twoOutputs
    (by simp [twoOutputs, Small, contentBufferLen, trashLen]) rfl (show _ = some 0 from rfl)
    (by decide) (by decide) (new [])
  rw [hread] at hok
  exact absurd (EStateM.Result.ok.inj hok).1 (by decide)

end FastCgi

end LWebServer
