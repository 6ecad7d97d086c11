import LWebServer.FastCgi.Codec
import Mathlib.Data.List.TakeWhile

/-!
# The request that is sent

What `start` writes is a sequence of records, up to the records for the data. A receiver that reads
it as the format prescribes gets the request if the file name fits in `bodyBuffer`, neither argument
is cut at a NUL, and the data is not empty and fits in one record.
-/

namespace LWebServer.FastCgi

open Frames

/-! ## What the calls write -/

/-- A record as `FastCgi` writes it. -/
def recordBytes (requestId : ℤ) (record : ℕ × List Byte) : List Byte :=
  (createHeader record.1 requestId record.2.length 0).bytes ++ record.2

/-- The request id that a receiver reads. -/
def sentId (requestId : ℤ) : ℕ := twoBytes (uchar (requestId.shiftRight 8)) (uchar requestId)

/-- What a receiver makes of it. -/
def sentRecord (requestId : ℤ) (record : ℕ × List Byte) : Record :=
  ⟨record.1, sentId requestId, record.2⟩

/-- The pairs that are sent. -/
def sentPairs (path data : List Byte) : List (List Byte × List Byte) :=
  [(text "SCRIPT_FILENAME", cString path), (text "REQUEST_METHOD", text "POST"),
    (text "CONTENT_LENGTH", text (toString (toInt data.length))),
    (text "CONTENT_TYPE", text "application/x-www-form-urlencoded")]

/-- The record for a pair. -/
def paramsRecord (pair : List Byte × List Byte) : ℕ × List Byte :=
  (fcgiParams, pairBytes pair.1 pair.2)

/-- The record that begins the request. -/
def beginRecord : ℕ × List Byte :=
  (fcgiBeginRequest, (createBeginRequestBody fcgiResponder false).bytes)

/-- The records before those for the data. -/
def prelude (path data : List Byte) : List (ℕ × List Byte) :=
  beginRecord :: ((sentPairs path data).map paramsRecord ++ [(fcgiParams, [])])

/-- What is written for the data. -/
def stdinBytes (requestId : ℤ) (data : List Byte) : List Byte :=
  (createHeader fcgiStdin requestId (toInt data.length) 0).bytes ++
    (cString data ++ [0]).take data.length ++ (createHeader fcgiStdin requestId 0 0).bytes

/-- A pair is put together if it fits in `bodyBuffer`. -/
theorem createContentValue_eq {name value : List Byte} (hname : name.length < 2 ^ 31)
    (hvalue : value.length < 2 ^ 31) :
    createContentValue name name.length value value.length =
      if (pairBytes name value).length ≤ contentBufferLen then .ok (pairBytes name value)
      else .error .undefinedBehaviour := by
  have hcall := createContentValueInto_eq contentBufferLen hname hvalue
  calc createContentValue name name.length value value.length =
        (createContentValueInto contentBufferLen name name.length value value.length).map
          Prod.fst := by
        rw [createContentValueInto_contentBufferLen]
        cases createContentValue name name.length value value.length <;> rfl
    _ = _ := by
        rw [hcall]
        split <;> rfl

/-- Whatever the lengths are taken to be, a value that is too long is not put together. -/
theorem length_le_of_createContentValue {name value body : List Byte} {nameLen valueLen : ℤ}
    (hbody : createContentValue name nameLen value valueLen = .ok body) :
    value.length ≤ contentBufferLen := by
  unfold createContentValue at hbody
  obtain ⟨_, -, hbody⟩ := except_bind_eq_ok.mp hbody
  obtain ⟨_, -, hbody⟩ := except_bind_eq_ok.mp hbody
  obtain ⟨buffer, -, hbody⟩ := except_bind_eq_ok.mp hbody
  cases value with
  | nil => exact Nat.zero_le _
  | cons ch value =>
    by_cases hroom : buffer.length < contentBufferLen
    · change (ch :: value).foldlM (putInto contentBufferLen) buffer = _ at hbody
      rw [foldlM_putInto _ hroom.le] at hbody
      split at hbody
      next => omega
      next => cases hbody
    · rw [List.foldlM_cons, put, if_neg hroom] at hbody
      cases hbody

theorem length_le_pairBytes (name value : List Byte) :
    value.length ≤ (pairBytes name value).length := by
  unfold pairBytes
  rw [List.length_append]
  omega

/-! ## When the calls return -/

@[simp]
theorem requestId_wrote (bytes : List Byte) (s : FastCgi) :
    (s.wrote bytes).requestId = s.requestId := rfl

@[simp]
theorem wrote_wrote (first second : List Byte) (s : FastCgi) :
    (s.wrote first).wrote second = s.wrote (first ++ second) := by
  simp only [wrote, List.append_assoc]

theorem write_eq_ok {bytes : List Byte} {s s' : FastCgi} :
    write bytes s = .ok () s' ↔ s' = s.wrote bytes := by
  change EStateM.Result.ok () (s.wrote bytes) = .ok () s' ↔ _
  simp [eq_comm]

theorem nextRequestId_eq_ok {s s' : FastCgi} :
    nextRequestId s = .ok () s' ↔
      s.requestId < 2 ^ 31 - 1 ∧ s' = { s with requestId := s.requestId + 1 } := by
  change (if s.requestId < 2 ^ 31 - 1 then set { s with requestId := s.requestId + 1 }
    else throw .undefinedBehaviour : Call Unit) s = .ok () s' ↔ _
  split
  next hsmall =>
    constructor
    · intro hok
      cases hok
      exact ⟨hsmall, rfl⟩
    · rintro ⟨-, rfl⟩
      rfl
  next hlarge => exact iff_of_false (fun hok ↦ by cases hok) (fun hboth ↦ hlarge hboth.1)

theorem startRequest_eq_ok {s s' : FastCgi} :
    startRequest s = .ok () s' ↔ s' = s.wrote (recordBytes s.requestId beginRecord) :=
  write_eq_ok

theorem endRequest_eq_ok {s s' : FastCgi} :
    endRequest s = .ok () s' ↔ s' = s.wrote (recordBytes s.requestId (fcgiParams, [])) :=
  write_eq_ok

theorem sendContent_eq_ok {tag value : List Byte} {s s' : FastCgi} (htag : tag.length < 2 ^ 31) :
    sendContent tag value s = .ok () s' ↔
      (paramsRecord (tag, value)).2.length ≤ contentBufferLen ∧
        s' = s.wrote (recordBytes s.requestId (paramsRecord (tag, value))) := by
  change _ ↔ (pairBytes tag value).length ≤ contentBufferLen ∧ _
  have hlarge : contentBufferLen < 2 ^ 31 := by decide
  have hcreate (body : List Byte) :
      createContentValue tag (toInt tag.length) value (toInt value.length) = .ok body ↔
        (pairBytes tag value).length ≤ contentBufferLen ∧ body = pairBytes tag value := by
    constructor
    · intro hbody
      have hvalue := length_le_of_createContentValue hbody
      rw [toInt_of_lt htag, toInt_of_lt (by omega), createContentValue_eq htag (by omega)] at hbody
      split at hbody
      next hfits =>
        cases hbody
        exact ⟨hfits, rfl⟩
      next => cases hbody
    · rintro ⟨hfits, rfl⟩
      have hvalue := length_le_pairBytes tag value
      rw [toInt_of_lt htag, toInt_of_lt (by omega), createContentValue_eq htag (by omega),
        if_pos hfits]
  unfold sendContent
  cases hbody : createContentValue tag (toInt tag.length) value (toInt value.length) with
  | error fault =>
    have hno : ¬ (pairBytes tag value).length ≤ contentBufferLen := by
      intro hfits
      rw [(hcreate _).mpr ⟨hfits, rfl⟩] at hbody
      cases hbody
    exact iff_of_false (fun hok ↦ by cases hok) (fun hboth ↦ hno hboth.1)
  | ok body =>
    obtain ⟨hfits, rfl⟩ := (hcreate body).mp hbody
    exact ⟨fun hok ↦ ⟨hfits, write_eq_ok.mp hok⟩, fun hboth ↦ write_eq_ok.mpr hboth.2⟩

theorem sendRequest_eq_ok {data : List Byte} {s s' : FastCgi} :
    sendRequest (cString data) data.length s = .ok () s' ↔
      data.length ≤ (cString data).length + 1 ∧ s' = s.wrote (stdinBytes s.requestId data) := by
  unfold sendRequest
  split
  next hshort => exact iff_of_false (fun hok ↦ by cases hok) (fun hboth ↦ by omega)
  next hlong =>
    have hboth : data.length ≤ (cString data).length + 1 := by omega
    rw [stdinBytes, ← wrote_wrote, ← wrote_wrote]
    constructor
    · intro hok
      cases hok
      exact ⟨hboth, rfl⟩
    · rintro ⟨-, rfl⟩
      rfl

/-- When `start` returns, and what it has written. -/
theorem start_eq_ok {path data : List Byte} {s s' : FastCgi} :
    start path data s = .ok () s' ↔
      s.requestId < 2 ^ 31 - 1 ∧
      (∀ record ∈ prelude path data, record.2.length ≤ contentBufferLen) ∧
      data.length ≤ (cString data).length + 1 ∧
      s' = { s with requestId := s.requestId + 1 }.wrote
        ((prelude path data).flatMap (recordBytes (s.requestId + 1)) ++
          stdinBytes (s.requestId + 1) data) := by
  have hfirst : beginRecord.2.length ≤ contentBufferLen := by decide
  unfold start prelude sentPairs
  simp only [seq_eq_ok, nextRequestId_eq_ok, startRequest_eq_ok, endRequest_eq_ok,
    sendRequest_eq_ok, sendContent_eq_ok (show (text "SCRIPT_FILENAME").length < 2 ^ 31 by decide),
    sendContent_eq_ok (show (text "REQUEST_METHOD").length < 2 ^ 31 by decide),
    sendContent_eq_ok (show (text "CONTENT_LENGTH").length < 2 ^ 31 by decide),
    sendContent_eq_ok (show (text "CONTENT_TYPE").length < 2 ^ 31 by decide),
    and_assoc, exists_and_left, exists_eq_left, wrote_wrote, requestId_wrote,
    List.map_cons, List.map_nil, List.cons_append, List.nil_append, List.forall_mem_cons,
    List.not_mem_nil, false_implies, implies_true, List.length_nil, Nat.zero_le, hfirst, true_and,
    List.flatMap_cons, List.flatMap_nil, List.append_nil, List.append_assoc]

/-! ## What a receiver reads -/

/-- A record that is written is received. -/
theorem record?_recordBytes (requestId : ℤ) {record : ℕ × List Byte} (hkind : record.1 < 256)
    (hcontent : record.2.length < 65536) (rest : List Byte) :
    record? (recordBytes requestId record ++ rest) = some (sentRecord requestId record, rest) := by
  let p : Packet :=
    { kind := UInt8.ofNat record.1
      requestIdB1 := uchar (requestId.shiftRight 8)
      requestIdB0 := uchar requestId
      reserved := 0
      content := record.2
      padding := []
      content_lt := hcontent
      padding_lt := by decide }
  have hbytes : recordBytes requestId record = p.bytes := by
    rw [recordBytes, createHeader, uchar_natCast, uchar_natCast, uchar_shiftRight]
    exact (List.append_nil _).symm
  have hrecord : p.record = sentRecord requestId record := by
    rw [Packet.record, sentRecord, sentId, UInt8.toNat_ofNat', Nat.mod_eq_of_lt hkind]
  rw [hbytes, record?_bytes, hrecord]

/-- The records of a stream that begins with records that have been written. -/
theorem splits_recordBytes {requestId : ℤ} {records : List (ℕ × List Byte)}
    (hrecords : ∀ record ∈ records, record.1 < 256 ∧ record.2.length < 65536)
    {rest : List Byte} {frames : List Record} :
    Splits record? (records.flatMap (recordBytes requestId) ++ rest) frames ↔
      ∃ frames', frames = records.map (sentRecord requestId) ++ frames' ∧
        Splits record? rest frames' :=
  splits_flatMap_append (fun record _ ↦ by simp [recordBytes, Header.bytes])
    fun record hmem ↦
      record?_recordBytes requestId (hrecords record hmem).1 (hrecords record hmem).2

theorem splits_sent (requestId : ℤ) {records : List (ℕ × List Byte)}
    (hrecords : ∀ record ∈ records, record.1 < 256 ∧ record.2.length < 65536) :
    Splits record? (records.flatMap (recordBytes requestId))
      (records.map (sentRecord requestId)) :=
  splits_flatMap (fun record _ ↦ by simp [recordBytes, Header.bytes])
    fun record hmem ↦
      record?_recordBytes requestId (hrecords record hmem).1 (hrecords record hmem).2

/-! ## Arguments with a NUL -/

/-- `send` reads all of the data and no more than the string and its NUL if the data has a NUL at
its end at most. -/
theorem length_le_cString_iff (data : List Byte) :
    data.length ≤ (cString data).length + 1 ↔ 0 ∉ data.dropLast := by
  constructor
  · intro hle hzero
    have hinit : data.dropLast <+: cString data := by
      refine List.prefix_of_prefix_length_le (List.dropLast_prefix data)
        (List.takeWhile_prefix _) ?_
      rw [List.length_dropLast]
      omega
    exact zero_notMem_cString data (hinit.subset hzero)
  · intro hdata
    rcases List.eq_nil_or_concat' data with rfl | ⟨first, last, rfl⟩
    · exact Nat.zero_le _
    · rw [List.dropLast_concat] at hdata
      rw [cString_append hdata, List.length_append, List.length_append, List.length_singleton]
      omega

theorem take_cString {data : List Byte} (hdata : 0 ∉ data.dropLast) :
    (cString data ++ [0]).take data.length = data := by
  rcases List.eq_nil_or_concat' data with rfl | ⟨first, last, rfl⟩
  · rfl
  · rw [List.dropLast_concat] at hdata
    rw [cString_append hdata]
    by_cases hlast : last = 0
    · subst hlast
      have hstop : cString [0] = [] := rfl
      rw [hstop, List.append_nil, List.take_length]
    · have hkeep : cString [last] = [last] :=
        cString_eq_self fun hzero ↦ hlast (List.mem_singleton.mp hzero).symm
      rw [hkeep, List.take_left]

/-! ## The request -/

/-- The pairs of a request. -/
def pairs (path data : List Byte) : List (List Byte × List Byte) :=
  [(text "SCRIPT_FILENAME", path), (text "REQUEST_METHOD", text "POST"),
    (text "CONTENT_LENGTH", text (toString data.length)),
    (text "CONTENT_TYPE", text "application/x-www-form-urlencoded")]

/-- A record that begins a request for a responder, records for the parameters and records for the
data, none of these empty, all with one request id. -/
structure Conveys (path data : List Byte) (requestId : ℕ) (begun : Record)
    (params stdin : List Record) : Prop where
  begun_kind : begun.kind = fcgiBeginRequest
  role : ∃ flags reserved, begun.content = [0, 1, flags] ++ reserved ∧ reserved.length = 5
  params_kind : ∀ record ∈ params, record.kind = fcgiParams ∧ record.content ≠ []
  params_content : Splits pair? (params.flatMap Record.content) (pairs path data)
  stdin_kind : ∀ record ∈ stdin, record.kind = fcgiStdin ∧ record.content ≠ []
  stdin_content : stdin.flatMap Record.content = data
  ids : ∀ record ∈ begun :: (params ++ stdin), record.requestId = requestId

/-- A receiver reads such records, with one empty record behind the parameters and one behind the
data. -/
def Decodes (path data wire : List Byte) : Prop :=
  ∃ requestId begun params stdin,
    Splits record? wire (begun :: (params ++ ⟨fcgiParams, requestId, []⟩ ::
      (stdin ++ [⟨fcgiStdin, requestId, []⟩]))) ∧
    Conveys path data requestId begun params stdin

/-- What `start` writes. -/
def wire (requestId : ℤ) (path data : List Byte) : List Byte :=
  (prelude path data).flatMap (recordBytes requestId) ++ stdinBytes requestId data

theorem prelude_small {path data : List Byte}
    (hfits : ∀ record ∈ prelude path data, record.2.length ≤ contentBufferLen) :
    ∀ record ∈ prelude path data, record.1 < 256 ∧ record.2.length < 65536 := by
  have hlarge : contentBufferLen < 65536 := by decide
  refine fun record hmem ↦ ⟨?_, (hfits record hmem).trans_lt hlarge⟩
  rcases List.mem_cons.mp hmem with rfl | hmem
  · decide
  · rcases List.mem_append.mp hmem with hmem | hmem
    · obtain ⟨pair, -, rfl⟩ := List.mem_map.mp hmem
      exact (by decide : fcgiParams < 256)
    · rw [List.mem_singleton.mp hmem]
      exact (by decide : fcgiParams < 256)

theorem sentPairs_small {path data : List Byte}
    (hfits : ∀ record ∈ prelude path data, record.2.length ≤ contentBufferLen) :
    ∀ pair ∈ sentPairs path data, pair.1.length < 2 ^ 31 ∧ pair.2.length < 2 ^ 31 := by
  intro pair hmem
  have hrecord : paramsRecord pair ∈ prelude path data :=
    List.mem_cons_of_mem _ (List.mem_append_left _ (List.mem_map_of_mem hmem))
  have hpair : (pairBytes pair.1 pair.2).length ≤ 1024 := hfits _ hrecord
  rw [pairBytes, List.length_append, List.length_append] at hpair
  omega

/-- The data is in one record if it fits. -/
theorem stdinBytes_eq {requestId : ℤ} {data : List Byte} (hlength : data.length < 65536)
    (hdata : 0 ∉ data.dropLast) :
    stdinBytes requestId data =
      [(fcgiStdin, data), (fcgiStdin, [])].flatMap (recordBytes requestId) := by
  rw [stdinBytes, toInt_of_lt (by omega), take_cString hdata]
  simp [recordBytes]

theorem length_stdinBytes {requestId : ℤ} {data : List Byte}
    (hlong : data.length ≤ (cString data).length + 1) :
    (stdinBytes requestId data).length = 16 + data.length := by
  simp only [stdinBytes, List.length_append, List.length_take, Header.bytes, List.length_cons,
    List.length_nil]
  omega

theorem params_flatMap_content (requestId : ℤ) (sent : List (List Byte × List Byte)) :
    (sent.map fun pair ↦ sentRecord requestId (paramsRecord pair)).flatMap Record.content =
      sent.flatMap fun pair ↦ pairBytes pair.1 pair.2 := by
  rw [List.flatMap_map]
  rfl

/-- What a receiver reads first. -/
theorem Decodes.after {requestId : ℤ} {path data : List Byte}
    (hfits : ∀ record ∈ prelude path data, record.2.length ≤ contentBufferLen)
    (hdecodes : Decodes path data (wire requestId path data)) :
    pairs path data = sentPairs path data ∧ ∃ (id : ℕ) (stdin : List Record),
      (∀ record ∈ stdin, record.kind = fcgiStdin ∧ record.content ≠ []) ∧
      stdin.flatMap Record.content = data ∧
      Splits record? (stdinBytes requestId data) (stdin ++ [⟨fcgiStdin, id, []⟩]) := by
  obtain ⟨id, begun, params, stdin, hsplits, hconveys⟩ := hdecodes
  obtain ⟨frames, hframes, hrest⟩ := (splits_recordBytes (prelude_small hfits)).mp hsplits
  have hmap : (prelude path data).map (sentRecord requestId) ++ frames =
      sentRecord requestId beginRecord ::
        ((sentPairs path data).map (fun pair ↦ sentRecord requestId (paramsRecord pair)) ++
          sentRecord requestId (fcgiParams, []) :: frames) := by
    simp [prelude]
  rw [hmap] at hframes
  obtain ⟨hparams, -, hstdin⟩ := append_cons_inj (p := fun record ↦ record.content = [])
    (fun record hmem ↦ (hconveys.params_kind record hmem).2) (by
      intro record hmem
      obtain ⟨pair, -, rfl⟩ := List.mem_map.mp hmem
      exact pairBytes_ne_nil pair.1 pair.2) rfl rfl (List.cons.inj hframes).2
  subst hstdin
  refine ⟨?_, id, stdin, hconveys.stdin_kind, hconveys.stdin_content, hrest⟩
  have hsent : Splits pair? (params.flatMap Record.content) (sentPairs path data) := by
    rw [hparams, params_flatMap_content]
    exact splits_pairBytes (sentPairs_small hfits)
  exact hconveys.params_content.unique hsent

/-- The file name has no NUL, or a part of it is missing. -/
theorem zero_notMem_of_pairs {path data : List Byte}
    (hpairs : pairs path data = sentPairs path data) : 0 ∉ path := by
  have hname : path = cString path := congrArg Prod.snd (List.cons.inj hpairs).1
  rw [hname]
  exact zero_notMem_cString path

theorem sum_weights (records : List Record) :
    (records.map fun record ↦ 8 + record.content.length).sum =
      8 * records.length + (records.flatMap Record.content).length := by
  induction records with
  | nil => rfl
  | cons record records ih =>
    rw [List.map_cons, List.sum_cons, List.length_cons, List.flatMap_cons, List.length_append, ih]
    omega

/-- The data makes up one record that is not empty: two empty records are written if there is no
data, and there are not enough bytes for the headers of two records with data. -/
theorem data_of_splits {requestId : ℤ} {id : ℕ} {data : List Byte} {stdin : List Record}
    (hlong : data.length ≤ (cString data).length + 1)
    (hstdin : ∀ record ∈ stdin, record.kind = fcgiStdin ∧ record.content ≠ [])
    (hcontent : stdin.flatMap Record.content = data)
    (hsplits : Splits record? (stdinBytes requestId data) (stdin ++ [⟨fcgiStdin, id, []⟩])) :
    data ≠ [] ∧ data.length < 65536 := by
  cases stdin with
  | nil =>
    exfalso
    subst hcontent
    have htwo : Splits record? (stdinBytes requestId [])
        ([(fcgiStdin, []), (fcgiStdin, [])].map (sentRecord requestId)) := by
      rw [stdinBytes_eq (by decide) List.not_mem_nil]
      exact splits_sent requestId (by simp [fcgiStdin])
    have hlength := congrArg List.length (hsplits.unique htwo)
    simp at hlength
  | cons record stdin =>
    obtain ⟨⟨-, hne⟩, -⟩ := List.forall_mem_cons.mp hstdin
    have hweight := hsplits.weight_le (fun record ↦ 8 + record.content.length)
      fun _ _ _ hrecord ↦ (record?_length hrecord).1
    rw [length_stdinBytes hlong, sum_weights, List.flatMap_append, hcontent] at hweight
    have hone : stdin = [] := by
      apply List.eq_nil_of_length_eq_zero
      simp only [List.length_append, List.length_cons, List.length_nil] at hweight
      omega
    subst hone
    have hdata : record.content = data := by simpa using hcontent
    have hsmall : record.content.length < 65536 :=
      hsplits.forall_mem (fun _ _ _ hrecord ↦ (record?_length hrecord).2) record
        (List.mem_append_left _ List.mem_cons_self)
    rw [← hdata]
    exact ⟨hne, hsmall⟩

theorem pairs_eq_sentPairs {path data : List Byte} (hpath : 0 ∉ path)
    (hlength : data.length < 65536) : pairs path data = sentPairs path data := by
  rw [pairs, sentPairs, cString_eq_self hpath, toInt_of_lt (by omega)]
  rfl

/-- What is written for arguments that are not cut and not too long is the request. -/
theorem decodes_wire {requestId : ℤ} {path data : List Byte}
    (hfits : ∀ record ∈ prelude path data, record.2.length ≤ contentBufferLen) (hpath : 0 ∉ path)
    (hne : data ≠ []) (hlength : data.length < 65536) (hdata : 0 ∉ data.dropLast) :
    Decodes path data (wire requestId path data) := by
  refine ⟨sentId requestId, sentRecord requestId beginRecord,
    (sentPairs path data).map fun pair ↦ sentRecord requestId (paramsRecord pair),
    [sentRecord requestId (fcgiStdin, data)], ?_, ?_⟩
  · have hall : ∀ record ∈ prelude path data ++ [(fcgiStdin, data), (fcgiStdin, [])],
        record.1 < 256 ∧ record.2.length < 65536 := by
      refine List.forall_mem_append.mpr ⟨prelude_small hfits, ?_⟩
      simp [fcgiStdin, hlength]
    rw [wire, stdinBytes_eq hlength hdata, ← List.flatMap_append]
    have hsplits := splits_sent requestId hall
    simp only [prelude, List.cons_append, List.append_assoc, List.nil_append, List.map_cons,
      List.map_append, List.map_map, List.map_nil] at hsplits
    exact hsplits
  · constructor
    · rfl
    · exact ⟨0, List.replicate 5 0, rfl, rfl⟩
    · intro record hmem
      obtain ⟨pair, -, rfl⟩ := List.mem_map.mp hmem
      exact ⟨rfl, pairBytes_ne_nil pair.1 pair.2⟩
    · rw [params_flatMap_content, pairs_eq_sentPairs hpath hlength]
      exact splits_pairBytes (sentPairs_small hfits)
    · intro record hmem
      rw [List.mem_singleton.mp hmem]
      exact ⟨rfl, hne⟩
    · simp [sentRecord]
    · intro record hmem
      rcases List.mem_cons.mp hmem with rfl | hmem
      · rfl
      rcases List.mem_append.mp hmem with hmem | hmem
      · obtain ⟨pair, -, rfl⟩ := List.mem_map.mp hmem
        rfl
      · rw [List.mem_singleton.mp hmem]
        rfl

/-! ## The sizes -/

theorem length_pairBytes_short {name : List Byte} (hname : name.length < 128)
    (value : List Byte) :
    (pairBytes name value).length ≤ contentBufferLen ↔
      name.length + value.length + 5 ≤ contentBufferLen ∨ value.length < 128 := by
  have hlarge : contentBufferLen = 1024 := rfl
  rw [length_pairBytes (name, value), encodedLength, if_pos hname]
  dsimp only
  split_ifs <;> omega

/-- The longest length that can be announced has five digits. -/
theorem length_decimal {n : ℕ} (hn : n < 65536) : (text (toString (toInt n))).length ≤ 5 := by
  rw [toInt_of_lt (by omega), text, List.length_map]
  change n.repr.toList.length ≤ 5
  rw [String.length_toList]
  exact (Nat.length_repr_le_iff (by decide)).mpr (by omega)

theorem prelude_fits {path data : List Byte} (hpath : 0 ∉ path) (hlength : data.length < 65536) :
    (∀ record ∈ prelude path data, record.2.length ≤ contentBufferLen) ↔ path.length ≤ 1004 := by
  have hdecimal := length_decimal hlength
  have hname : (text "SCRIPT_FILENAME").length = 15 := by decide
  have hlarge : contentBufferLen = 1024 := rfl
  have hfile := length_pairBytes_short (show (text "SCRIPT_FILENAME").length < 128 by decide)
    path
  have hcount := length_pairBytes_short (show (text "CONTENT_LENGTH").length < 128 by decide)
    (text (toString (toInt data.length)))
  simp only [prelude, sentPairs, paramsRecord, cString_eq_self hpath, List.map_cons, List.map_nil,
    List.cons_append, List.nil_append, List.forall_mem_cons, List.not_mem_nil, false_implies,
    implies_true, and_true]
  constructor
  · rintro ⟨-, hfits, -⟩
    have hsize := hfile.mp hfits
    omega
  · intro hshort
    exact ⟨by decide, hfile.mpr (by omega), by decide, hcount.mpr (.inr (by omega)), by decide,
      Nat.zero_le _⟩

/-! ## The law -/

/-- `start` returns and a receiver reads the request exactly if the file name has no NUL and at most
1004 bytes, the data is not empty, has at most 65535 bytes and a NUL at its end at most, and the
request ids are not used up. -/
theorem start_decodes_iff (path data : List Byte) (s : FastCgi) :
    (∃ s' sent, start path data s = .ok () s' ∧ s'.sent = s.sent ++ sent ∧
      Decodes path data sent) ↔
    s.requestId < 2 ^ 31 - 1 ∧ 0 ∉ path ∧ path.length ≤ 1004 ∧ data ≠ [] ∧
      data.length < 65536 ∧ 0 ∉ data.dropLast := by
  constructor
  · rintro ⟨s', sent, hstart, hsent, hdecodes⟩
    obtain ⟨hid, hfits, hlong, rfl⟩ := start_eq_ok.mp hstart
    have hwire : sent = wire (s.requestId + 1) path data := (List.append_cancel_left hsent).symm
    subst hwire
    obtain ⟨hpairs, id, stdin, hstdin, hcontent, hsplits⟩ := hdecodes.after hfits
    have hpath : 0 ∉ path := zero_notMem_of_pairs hpairs
    obtain ⟨hne, hlength⟩ := data_of_splits hlong hstdin hcontent hsplits
    exact ⟨hid, hpath, (prelude_fits hpath hlength).mp hfits, hne, hlength,
      (length_le_cString_iff data).mp hlong⟩
  · rintro ⟨hid, hpath, hshort, hne, hlength, hdata⟩
    have hfits := (prelude_fits hpath hlength).mpr hshort
    refine ⟨_, wire (s.requestId + 1) path data,
      start_eq_ok.mpr ⟨hid, hfits, (length_le_cString_iff data).mpr hdata, rfl⟩, rfl, ?_⟩
    exact decodes_wire hfits hpath hne hlength hdata

/-- The name of a file in a deep directory does not fit in `bodyBuffer`. -/
theorem not_decodes_long : ¬ ∃ s' sent,
    start (List.replicate 1005 97) (text "hello world") (new []) = .ok () s' ∧
      s'.sent = (new []).sent ++ sent ∧
      Decodes (List.replicate 1005 97) (text "hello world") sent := by
  rintro ⟨s', sent, hstart, -, -⟩
  obtain ⟨-, hfits, -, -⟩ := start_eq_ok.mp hstart
  have hpath : (0 : Byte) ∉ List.replicate 1005 97 := by
    intro hzero
    exact absurd (List.eq_of_mem_replicate hzero) (by decide)
  have hshort := (prelude_fits hpath (by decide)).mp hfits
  rw [List.length_replicate] at hshort
  omega

end LWebServer.FastCgi
