import LWebServer.Http.Fences
import LWebServer.Http.MediaType
import LWebServer.Http.Provenance

/-!
# What a request head is answered

The answer to a request in terms of its head alone: of the header map only the value of `Host`
matters, and of the memory only the URI with the blank behind it. What `provide` prints for a
request that the parser has accepted is this answer.
-/

namespace LWebServer

open Memory Provider

namespace RequestHead

/-- The values of the `Host` lines. -/
def hosts (h : RequestHead) : List (List Byte) :=
  (h.headers.filter fun line ↦ line.1 = text "Host").map Prod.snd

/-- The file that is asked for. -/
def file (site : Site) (host : List Byte) (h : RequestHead) :
    Except Fail (Option OpenedFile) :=
  if site.allotted < h.uri.length + 1 then .error .undefinedBehaviour
  else if h.uri = text "/" then .ok site.index
  else .ok (site.openAt (cString host) (cString h.uri))

/-- What the FastCGI server gives: the name of the file is the URI with the blank behind it, of
which one byte is set to zero. -/
def cgi (site : Site) (host : List Byte) (h : RequestHead) : Except Fail (List Byte) :=
  if h.uri.length + 1 < host.length then .error .undefinedBehaviour
  else site.fastCgi (host ++ [0]) ((h.uri ++ [ascii ' ']).set host.length 0)

def response (site : Site) (host : List Byte) (h : RequestHead) : Except Fail Response :=
  if h.method = .hrPost then
    match h.cgi site host with
    | .error e => .error e
    | .ok content => .ok (.ofContent content)
  else
    match h.file site host with
    | .error e => .error e
    | .ok (some ⟨content, false⟩) => .ok (.ofFile content)
    | .ok _ => .ok .error

/-- The version and the flag as the head of the answer repeats them. -/
def request (flag : HttpFlag) (status : HttpStatusCode) (h : RequestHead) : HttpRequest :=
  { HttpRequest.zero with
    versionMajor := Decimal.wrap 32 (numeral h.major)
    versionMinor := Decimal.wrap 32 (numeral h.minor)
    statusCode := status
    flag := flag }

/-- The bytes are an answer to the head. -/
def Reply (site : Site) (host : List Byte) (flag : HttpFlag) (h : RequestHead)
    (bytes : List Byte) : Prop :=
  ∃ response type, h.response site host = .ok response ∧ scanned h.uri.tail = .ok type ∧
    response.Texts site (h.request flag response.status) type bytes

end RequestHead

namespace HttpRequest

/-- The request is that of a head, and its URI is found in the memory with a blank behind it. -/
structure Renders (mem : ℕ → Byte) (h : RequestHead) (flag : HttpFlag) (r : HttpRequest) :
    Prop where
  method : r.method = h.method
  versionMajor : r.versionMajor = Decimal.wrap 32 (numeral h.major)
  versionMinor : r.versionMinor = Decimal.wrap 32 (numeral h.minor)
  flag : r.flag = flag
  good : r.requestGood = true
  uri : ∃ start, r.uri = ⟨some start, h.uri.length⟩ ∧ load mem start h.uri.length = h.uri ∧
    mem (start + h.uri.length) = ascii ' '

namespace Renders

variable {mem : ℕ → Byte} {h : RequestHead} {flag : HttpFlag} {r : HttpRequest}

theorem uri_bytes (hrenders : r.Renders mem h flag) : r.uri.bytes mem = h.uri := by
  obtain ⟨start, huri, hload, -⟩ := hrenders.uri
  rw [huri, ParsedHeader.bytes_some, hload]

theorem uri_length (hrenders : r.Renders mem h flag) : r.uri.length = h.uri.length := by
  obtain ⟨start, huri, -⟩ := hrenders.uri
  rw [huri]

theorem filename_bytes (hrenders : r.Renders mem h flag) :
    ParsedHeader.bytes mem ⟨r.uri.header, r.uri.length + 1⟩ = h.uri ++ [ascii ' '] := by
  obtain ⟨start, huri, hload, hblank⟩ := hrenders.uri
  rw [huri, ParsedHeader.bytes_some, load_succ_last, hload, hblank]

theorem autoAdapt_eq (hrenders : r.Renders mem h flag) :
    autoAdapt mem r.uri = scanned h.uri.tail := by
  obtain ⟨start, huri, hload, hblank⟩ := hrenders.uri
  rw [huri]
  exact Provider.autoAdapt_eq hload hblank

/-- The response is that to the head, with the `Host` that `Get_Value` finds. -/
theorem respond_eq (hrenders : r.Renders mem h flag) (table : HeaderTable) (site : Site)
    {host : ParsedHeader} (hfound : r.getValue table mem (text "Host") = some host)
    (hlength : (host.bytes mem).length = host.length) :
    REAProvider.respond table site mem r = h.response site (host.bytes mem) := by
  have hcgi : REAProvider.cgiContent site mem host r.uri = h.cgi site (host.bytes mem) := by
    unfold REAProvider.cgiContent RequestHead.cgi
    rw [hrenders.filename_bytes, ← hlength]
    simp only [List.length_append, List.length_singleton]
  have hfile : REAProvider.requested site mem host r.uri = h.file site (host.bytes mem) := by
    unfold REAProvider.requested RequestHead.file
    rw [hrenders.uri_bytes, hrenders.uri_length]
  unfold REAProvider.respond
  rw [hrenders.method, hrenders.good, hfound]
  dsimp only
  rw [hcgi, hfile]
  rfl

/-- Without a `Host` there is no response. -/
theorem respond_of_none (hrenders : r.Renders mem h flag) (table : HeaderTable) (site : Site)
    (hnone : r.getValue table mem (text "Host") = none) :
    REAProvider.respond table site mem r = .error .invalidArgument := by
  unfold REAProvider.respond
  rw [hrenders.good, hnone]
  by_cases hpost : r.method = .hrPost
  · rw [if_pos hpost]
  · rw [if_neg hpost, if_neg (by decide)]

end Renders

end HttpRequest

/-! ## What is printed -/

/-- The values of the entries have their full length in any memory. -/
def Filled (entries : List HeaderEntry) : Prop :=
  ∀ entry ∈ entries, ∃ start, entry.2.header = some start

theorem Filled.length_bytes {entries : List HeaderEntry} (hfilled : Filled entries)
    {entry : HeaderEntry} (hentry : entry ∈ entries) (mem : ℕ → Byte) :
    (entry.2.bytes mem).length = entry.2.length := by
  obtain ⟨start, hstart⟩ := hfilled entry hentry
  simp [ParsedHeader.bytes, hstart]

theorem Response.Texts.congr {response : Response} {site : Site} {r r' : HttpRequest}
    {type bytes : List Byte} (htexts : response.Texts site r type bytes)
    (hmajor : r.versionMajor = r'.versionMajor) (hminor : r.versionMinor = r'.versionMinor)
    (hstatus : r.statusCode = r'.statusCode) (hflag : r.flag = r'.flag) :
    response.Texts site r' type bytes := by
  have hpieces : response.pieces site r type = response.pieces site r' type := by
    unfold Response.pieces headPieces
    rw [hmajor, hminor, hstatus, hflag]
  cases htexts with
  | plain hfile hshowns => exact .plain hfile (hpieces ▸ hshowns)
  | file hfile hshowns hline => exact .file hfile (hpieces ▸ hshowns) hline

namespace HttpRequest.Renders

variable {mem : ℕ → Byte} {h : RequestHead} {flag : HttpFlag} {r : HttpRequest}

/-- What is printed for the request of a head is the answer to the head, with the value of some
entry that is named `Host`. -/
theorem reply_of_printing (hrenders : r.Renders mem h flag) (hwhole : Whole r.headerValue)
    (hfilled : Filled r.headerValue) {table : HeaderTable} {site : Site} {printed : Printed}
    (hprinting : REAProvider.printing table site mem r = [printed]) {bytes : List Byte}
    (htexts : printed.Texts bytes) :
    ∃ host, (text "Host", host) ∈ contents mem r.headerValue ∧ h.Reply site host flag bytes := by
  have hnames (entry : HeaderEntry) (hentry : entry ∈ r.headerValue) := hwhole entry hentry mem
  rcases r.getValue_spec table hnames (text "Host") with
    ⟨entry, hentry, hname, hfound⟩ | ⟨-, hnone⟩
  · refine ⟨entry.2.bytes mem, List.mem_map.mpr ⟨entry, hentry, by rw [hname]⟩, ?_⟩
    have hrespond := hrenders.respond_eq table site hfound (hfilled.length_bytes hentry mem)
    unfold REAProvider.printing at hprinting
    rw [hrespond, hrenders.autoAdapt_eq] at hprinting
    cases hresponse : h.response site (entry.2.bytes mem) with
    | error e => simp [hresponse] at hprinting
    | ok response =>
      cases htype : scanned h.uri.tail with
      | error e => simp [hresponse, htype] at hprinting
      | ok type =>
        simp only [hresponse, htype, List.cons.injEq, and_true] at hprinting
        subst hprinting
        have hbytes : response.Texts site (response.requestOf r) type bytes := htexts
        refine ⟨response, type, hresponse, htype, hbytes.congr ?_ ?_ rfl hrenders.flag⟩
        · simpa only [RequestHead.request, Response.requestOf] using hrenders.versionMajor
        · simpa only [RequestHead.request, Response.requestOf] using hrenders.versionMinor
  · unfold REAProvider.printing at hprinting
    rw [hrenders.respond_of_none table site hnone] at hprinting
    cases hprinting

end HttpRequest.Renders

/-- The request of a head that a call of `Starting_Parser` has finished. -/
theorem HttpParser.renders_of_read {table : HeaderTable} {stale : List HeaderEntry}
    {known : List (List Byte)} {p q : HttpParser} {fault : HttpParserFault} {h : RequestHead}
    {setKa : HttpFlag} {c : Scan} (hfenced : p.Fenced) (hextra : p.extrabuffer.isVaild = false)
    (hcall : startingParser table p = .ok fault q) (hread : Scan.HeadRead h setKa c)
    (htracks : Tracks table stale known q c) (hreported : Reported q c) :
    q.requestResult.Renders q.userBuffer.buffer h (h.lines.foldl HeaderLine.flag setKa) := by
  have hcontent : q.parserResult.fault = .hpfContent := htracks.agrees.fault.trans hread.fault
  obtain ⟨start, hstart, hend, hblank⟩ :=
    (fenced_startingParser hfenced hextra hcall).content hcontent
  have hview := htracks.uri
  rw [hread.uri] at hview
  have hlength : q.parserResult.uriView.length = h.uri.length := hview.length_eq h.uri_ne
  have hbytes := hview.bytes_eq
  have huri : q.parserResult.uri = some start := hstart
  have htold : q.requestResult.uri = q.parserResult.uriView := by
    unfold startingParser at hcall
    cases hparse : parsering table p.markShort with
    | error e r => simp [hparse] at hcall
    | ok u r =>
      simp only [hparse, EStateM.Result.ok.injEq] at hcall
      obtain ⟨-, rfl⟩ := hcall
      exact told_setRequesting r hcontent (by rw [huri]; exact Option.some_ne_none start)
  refine ⟨hreported.method.trans hread.method, hreported.versionMajor.trans hread.vMajor,
    hreported.versionMinor.trans hread.vMinor, hreported.flag.trans hread.setKa, ?_, start, ?_, ?_,
    ?_⟩
  · simp [HttpRequest.requestGood, hreported.fault, hread.fault]
  · rw [htold, ← hlength, ← hstart]
  · rw [← hlength]
    simpa [ParsedHeader.bytes, hstart] using hbytes
  · rw [← hlength]
    exact hblank

end LWebServer
