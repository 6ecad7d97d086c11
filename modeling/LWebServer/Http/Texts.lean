import Mathlib.Data.List.Find
import LWebServer.Http.Answer
import LWebServer.Http.Leftovers
import LWebServer.Tool.Leftovers

/-!
# What an answer depends on

`provide` looks at a request through its views. It cannot tell two memories apart in which the views
designate the same texts, and two write loops with the same to do are given the same tasks.
-/

namespace LWebServer

open Memory Lockstep WriteLoop Provider

/-! ## Requests over other memory -/

namespace HttpRequest

/-- All that a request designates is the same in two memories: the URI with the byte behind it,
which `AutoAdapt` begins at, and the header lines. -/
structure SameTexts (r : HttpRequest) (mem mem' : ℕ → Byte) : Prop where
  uri : ∀ start, r.uri.header = some start → ∀ i, i ≤ start + r.uri.length → mem' i = mem i
  entries : ∀ entry ∈ r.headerValue,
    entry.1.bytes mem' = entry.1.bytes mem ∧ entry.2.bytes mem' = entry.2.bytes mem

variable {r : HttpRequest} {mem mem' : ℕ → Byte}

theorem SameTexts.refl (r : HttpRequest) (mem : ℕ → Byte) : r.SameTexts mem mem :=
  ⟨fun _ _ _ _ ↦ rfl, fun _ _ ↦ ⟨rfl, rfl⟩⟩

/-- The views lie where the memories agree. -/
theorem SameTexts.of_below {spot : ℕ} (hcells : ∀ i, i < spot → mem' i = mem i)
    (huri : r.uri.Placed spot .complete)
    (hentries : ∀ entry ∈ r.headerValue, entry.1.Within spot ∧ entry.2.Within spot) :
    r.SameTexts mem mem' := by
  refine ⟨fun start hstart i hi ↦ hcells i ?_, fun entry hentry ↦ ?_⟩
  · obtain ⟨start', hstart', hend⟩ := huri
    cases hstart.symm.trans hstart'
    exact hi.trans_lt hend
  · obtain ⟨hname, hvalue⟩ := hentries entry hentry
    exact ⟨hname.bytes_eq hcells, hvalue.bytes_eq hcells⟩

namespace SameTexts

theorem uri_bytes (hsame : r.SameTexts mem mem') : r.uri.bytes mem' = r.uri.bytes mem := by
  have huri := hsame.uri
  unfold ParsedHeader.bytes
  cases hheader : r.uri.header with
  | none => rfl
  | some start => exact load_congr fun i _ hi ↦ huri start hheader i hi.le

/-- The URI and the byte behind it. -/
theorem filename_bytes (hsame : r.SameTexts mem mem') :
    ParsedHeader.bytes mem' ⟨r.uri.header, r.uri.length + 1⟩ =
      ParsedHeader.bytes mem ⟨r.uri.header, r.uri.length + 1⟩ := by
  have huri := hsame.uri
  unfold ParsedHeader.bytes
  dsimp only
  cases hheader : r.uri.header with
  | none => rfl
  | some start =>
    exact load_congr fun i _ hi ↦ huri start hheader i (Nat.le_of_lt_succ hi)

theorem getValue_eq (hsame : r.SameTexts mem mem') (table : HeaderTable) (header : List Byte) :
    r.getValue table mem' header = r.getValue table mem header := by
  have hperm := table.order_perm r.headerValue
  unfold getValue
  congr 1
  apply List.find?_congr
  intro entry hentry
  exact ParsedHeader.parsedHeaderIsEqual_congr
    (hsame.entries entry (hperm.mem_iff.mp hentry)).1 header

/-- What `Get_Value` finds is the same text. -/
theorem found_bytes (hsame : r.SameTexts mem mem') {table : HeaderTable} {header : List Byte}
    {value : ParsedHeader} (hvalue : r.getValue table mem header = some value) :
    value.bytes mem' = value.bytes mem := by
  have hperm := table.order_perm r.headerValue
  obtain ⟨entry, hfind, rfl⟩ := Option.map_eq_some_iff.mp hvalue
  exact (hsame.entries entry (hperm.mem_iff.mp (List.mem_of_find?_eq_some hfind))).2

end SameTexts

end HttpRequest

namespace Provider

theorem autoAdaptLoop_congr {mem mem' : ℕ → Byte} {temp size : ℕ}
    (hcells : ∀ i, i ≤ temp + size → mem' i = mem i) {start stop : ℕ} (hstart : start ≤ size)
    (hstop : stop ≤ size) :
    autoAdaptLoop mem' temp stop start = autoAdaptLoop mem temp stop start := by
  induction start generalizing stop with
  | zero => rfl
  | succ start ih =>
    have hcell : mem' (temp + (start + 1)) = mem (temp + (start + 1)) := hcells _ (by omega)
    have hsuffix : load mem' (temp + (start + 1)) (stop - (start + 1)) =
        load mem (temp + (start + 1)) (stop - (start + 1)) :=
      load_congr fun i _ hi ↦ hcells i (by omega)
    unfold autoAdaptLoop
    rw [hcell, hsuffix, ih (by omega) hstop, ih (by omega) hstart]

theorem autoAdapt_congr {r : HttpRequest} {mem mem' : ℕ → Byte} (hsame : r.SameTexts mem mem') :
    autoAdapt mem' r.uri = autoAdapt mem r.uri := by
  have huri := hsame.uri
  unfold autoAdapt
  cases hheader : r.uri.header with
  | none => rfl
  | some temp => exact autoAdaptLoop_congr (huri temp hheader) le_rfl le_rfl

end Provider

namespace REAProvider

/-- The response depends on what the request designates. -/
theorem respond_congr {r : HttpRequest} {mem mem' : ℕ → Byte} (hsame : r.SameTexts mem mem')
    (table : HeaderTable) (site : Site) (requestBuffer : Bool) :
    respond table site mem' { r with requestBuffer := requestBuffer } =
      respond table site mem r := by
  have hvalue := hsame.getValue_eq table (text "Host")
  have hgood : HttpRequest.requestGood { r with requestBuffer := requestBuffer } =
    r.requestGood := rfl
  have hget : HttpRequest.getValue table mem' { r with requestBuffer := requestBuffer }
    (text "Host") = r.getValue table mem' (text "Host") := rfl
  unfold respond
  rw [hgood, hget, hvalue]
  dsimp only
  cases hfound : r.getValue table mem (text "Host") with
  | none => rfl
  | some host =>
    have hhost := hsame.found_bytes hfound
    have hcgi : cgiContent site mem' host r.uri = cgiContent site mem host r.uri := by
      unfold cgiContent
      rw [hsame.filename_bytes, hhost]
    have hfile : requested site mem' host r.uri = requested site mem host r.uri := by
      unfold requested
      rw [hsame.uri_bytes, hhost]
    dsimp only
    rw [hcgi, hfile]

end REAProvider

/-! ## Two providers in step -/

/-- The same request, but for the pointer to the buffer, and two loops with the same to do. -/
structure Answering.Apart (sent : List Byte) (reported : List ℤ) (a a' : Answering) : Prop where
  request : a'.request = { a.request with requestBuffer := a'.request.requestBuffer }
  writeLoop : a.writeLoop.Apart sent reported a'.writeLoop

variable {sent : List Byte} {reported : List ℤ} {a a' : Answering}

namespace Response

theorem together_attach (hapart : Answering.Apart sent reported a a') (response : Response) :
    Together (Answering.Apart sent reported) (Answering.Apart sent reported) (response.attach a)
      (response.attach a') := by
  cases hfile : response.file with
  | none =>
    rw [attach_none hfile, attach_none hfile]
    exact .ok () hapart
  | some file =>
    have hqueued := hapart.writeLoop.addSendFile file
    have hput := together_put hqueued crlfPiece
    rw [attach_some hfile, attach_some hfile]
    cases hfirst : put crlfPiece (a.writeLoop.addSendFile file) with
    | error e w =>
      rw [hfirst] at hput
      generalize put crlfPiece (a'.writeLoop.addSendFile file) = result' at hput
      cases hput with
      | error _ hnext => exact .error e ⟨hapart.request, hnext⟩
    | ok n w =>
      obtain ⟨bytes, rfl, hfilled⟩ := put_fills hqueued.buffer.readSpot_le hfirst
      rw [hfirst] at hput
      generalize put crlfPiece (a'.writeLoop.addSendFile file) = result' at hput
      cases hput with
      | ok _ hnext => exact .ok () ⟨hapart.request, hqueued.addSend hfilled hnext⟩

/-- Both send the same response. -/
theorem together_send (hapart : Answering.Apart sent reported a a') (response : Response)
    (site : Site) {mem mem' : ℕ → Byte} (hsame : a.request.SameTexts mem mem') :
    Together (Answering.Apart sent reported) (Answering.Apart sent reported)
      (response.send site mem a) (response.send site mem' a') := by
  have huri : a'.request.uri = a.request.uri := by rw [hapart.request]
  have hmime : autoAdapt mem' a'.request.uri = autoAdapt mem a.request.uri := by
    rw [huri, autoAdapt_congr hsame]
  have hrequest : response.requestOf a'.request =
      { response.requestOf a.request with requestBuffer := a'.request.requestBuffer } := by
    unfold requestOf
    rw [hapart.request]
  cases htype : autoAdapt mem a.request.uri with
  | error e =>
    rw [send_of_error response htype, send_of_error response (hmime.trans htype)]
    exact .error e ⟨hrequest, hapart.writeLoop⟩
  | ok type =>
    have hpieces : response.pieces site (response.requestOf a'.request) type =
        response.pieces site (response.requestOf a.request) type := by
      rw [hrequest]
      rfl
    have hput := together_putAll hapart.writeLoop
      (response.pieces site (response.requestOf a.request) type)
    rw [send_of_ok response htype, send_of_ok response (hmime.trans htype), hpieces]
    cases hfirst : putAll (response.pieces site (response.requestOf a.request) type)
        a.writeLoop with
    | error e w =>
      rw [hfirst] at hput
      generalize putAll (response.pieces site (response.requestOf a.request) type)
        a'.writeLoop = result' at hput
      cases hput with
      | error _ hnext => exact .error e ⟨hrequest, hnext⟩
    | ok n w =>
      obtain ⟨bytes, rfl, hfilled⟩ := putAll_fills hapart.writeLoop.buffer.readSpot_le hfirst
      rw [hfirst] at hput
      generalize putAll (response.pieces site (response.requestOf a.request) type)
        a'.writeLoop = result' at hput
      cases hput with
      | ok _ hnext =>
        exact together_attach ⟨hrequest, hapart.writeLoop.addSend hfilled hnext⟩ response

end Response

/-- Both give the same answer. -/
theorem REAProvider.together_provide (hapart : Answering.Apart sent reported a a')
    (table : HeaderTable) (site : Site) {mem mem' : ℕ → Byte}
    (hsame : a.request.SameTexts mem mem') :
    Together (Answering.Apart sent reported) (Answering.Apart sent reported)
      (provide table site mem a) (provide table site mem' a') := by
  have hrespond : respond table site mem' a'.request = respond table site mem a.request := by
    rw [hapart.request, respond_congr hsame]
  rw [provide_eq, provide_eq, hrespond]
  cases respond table site mem a.request with
  | error e => exact .error e hapart
  | ok response => exact response.together_send hapart site hsame

end LWebServer
