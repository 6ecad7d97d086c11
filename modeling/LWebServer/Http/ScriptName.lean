import LWebServer.FastCgi.Reply
import LWebServer.FastCgi.Request
import LWebServer.Http.Acceptance
import LWebServer.Http.Answer

/-!
# The name of the script

For a `POST` request `provide` makes a string of the `Host`, with a NUL behind it, a slash and the
URI, and `start` sends it as a parameter, through its C string.
-/

namespace LWebServer

open Frames

namespace FastCgi

/-- A receiver of what has been sent reads that a parameter has a value. -/
def Carries (name value sent : List Byte) : Prop :=
  ∃ records pairs, Splits record? sent records ∧
    Splits pair? ((records.filter (·.kind = fcgiParams)).flatMap Record.content) pairs ∧
    (name, value) ∈ pairs

/-- The data that `provide` sends. -/
def greeting : List Byte := text "hello world"

theorem eq_of_mem_sentPairs {path data value : List Byte}
    (hmem : (text "SCRIPT_FILENAME", value) ∈ sentPairs path data) : value = cString path := by
  have hmethod : text "SCRIPT_FILENAME" ≠ text "REQUEST_METHOD" := by decide
  have hlength : text "SCRIPT_FILENAME" ≠ text "CONTENT_LENGTH" := by decide
  have htype : text "SCRIPT_FILENAME" ≠ text "CONTENT_TYPE" := by decide
  simpa only [sentPairs, List.mem_cons, Prod.mk.injEq, true_and, hmethod, hlength, htype,
    false_and, List.not_mem_nil, or_false] using hmem

theorem greeting_records (path : List Byte) (requestId : ℤ) :
    wire requestId path greeting =
      (prelude path greeting ++ [(fcgiStdin, greeting), (fcgiStdin, [])]).flatMap
        (recordBytes requestId) := by
  have hlength : greeting.length < 65536 := by decide
  have hzero : 0 ∉ greeting.dropLast := by decide
  rw [wire, stdinBytes_eq hlength hzero, List.flatMap_append]

/-- The records for the parameters. -/
theorem params_greeting (path : List Byte) (requestId : ℤ) :
    (((prelude path greeting ++ [(fcgiStdin, greeting), (fcgiStdin, [])]).map
        (sentRecord requestId)).filter (·.kind = fcgiParams)).flatMap Record.content =
      (sentPairs path greeting).flatMap fun pair ↦ pairBytes pair.1 pair.2 := by
  rw [← params_flatMap_content requestId]
  simp [prelude, sentPairs, paramsRecord, beginRecord, sentRecord, fcgiParams, fcgiBeginRequest,
    fcgiStdin]

/-- A receiver of a request reads the C string of the file name, and nothing else, as the name of
the script. -/
theorem carries_start_iff {path : List Byte} {s s' : FastCgi} (hsent : s.sent = [])
    (hstart : start path greeting s = .ok () s') (value : List Byte) :
    Carries (text "SCRIPT_FILENAME") value s'.sent ↔ value = cString path := by
  obtain ⟨-, hfits, -, rfl⟩ := start_eq_ok.mp hstart
  have hall : ∀ record ∈ prelude path greeting ++ [(fcgiStdin, greeting), (fcgiStdin, [])],
      record.1 < 256 ∧ record.2.length < 65536 :=
    List.forall_mem_append.mpr ⟨prelude_small hfits, by decide⟩
  have hrecords := splits_sent (s.requestId + 1) hall
  have hpairs := splits_pairBytes (sentPairs_small hfits)
  rw [← greeting_records] at hrecords
  rw [← params_greeting path (s.requestId + 1)] at hpairs
  unfold Carries
  change (∃ records pairs, Splits record? (s.sent ++ wire (s.requestId + 1) path greeting) records ∧
    _) ↔ _
  rw [hsent, List.nil_append]
  constructor
  · rintro ⟨records, pairs, hrecords', hpairs', hmem⟩
    obtain rfl := hrecords'.unique hrecords
    obtain rfl := hpairs'.unique hpairs
    exact eq_of_mem_sentPairs hmem
  · rintro rfl
    exact ⟨_, _, hrecords, hpairs, List.mem_cons_self⟩

end FastCgi

/-! ## What `provide` makes of a request -/

namespace Site

/-- A site that answers with the string that `provide` hands to `start`. -/
def joining : Site :=
  { bare with fastCgi := fun hostName filename ↦ .ok (hostName ++ text "/" ++ filename) }

end Site

namespace REAProvider

open FastCgi

/-- Whatever the FastCGI server makes of the string, it gets the one of `joining`. -/
theorem cgiContent_joined {site : Site} {answer : List Byte → Except Fail (List Byte)}
    (hsite : ∀ hostName filename,
      site.fastCgi hostName filename = answer (hostName ++ text "/" ++ filename))
    (mem : ℕ → Byte) (host uri : ParsedHeader) :
    cgiContent site mem host uri = cgiContent .joining mem host uri >>= answer := by
  unfold cgiContent
  dsimp only
  split
  · rfl
  · exact hsite _ _

/-- The string goes past the end of `Filename` if the `Host` is longer than the URI by two or
more. -/
theorem cgiContent_joining (mem : ℕ → Byte) (host uri : ParsedHeader) :
    cgiContent .joining mem host uri =
      if (ParsedHeader.bytes mem ⟨uri.header, uri.length + 1⟩).length < host.length then
        .error .undefinedBehaviour
      else .ok (host.bytes mem ++ 0 :: (text "/" ++
        (ParsedHeader.bytes mem ⟨uri.header, uri.length + 1⟩).set host.length 0)) := by
  unfold cgiContent
  dsimp only
  split
  · rfl
  · simp [Site.joining]

/-- `provide` builds a string for a request, `start` sends it, and a receiver reads the `Host`, a
slash and the URI as the name of the script. -/
def NamesScript (received : List Byte) (table : HeaderTable) (mem : ℕ → Byte) (r : HttpRequest) :
    Prop :=
  ∃ host path s', r.getValue table mem (text "Host") = some host ∧
    cgiContent .joining mem host r.uri = .ok path ∧
    start path greeting (FastCgi.new received) = .ok () s' ∧
    Carries (text "SCRIPT_FILENAME") (host.bytes mem ++ text "/" ++ r.uri.bytes mem) s'.sent

/-- What a receiver reads is the `Host` up to its first NUL. -/
theorem carries_host_iff {received path : List Byte} {mem : ℕ → Byte} {host uri : ParsedHeader}
    {s' : FastCgi} (hpath : cgiContent .joining mem host uri = .ok path)
    (hstart : start path greeting (FastCgi.new received) = .ok () s') (value : List Byte) :
    Carries (text "SCRIPT_FILENAME") value s'.sent ↔ value = cString (host.bytes mem) := by
  rw [cgiContent_joining] at hpath
  split at hpath
  next => cases hpath
  next =>
    cases hpath
    rw [carries_start_iff rfl hstart, cString_append_zero]

theorem not_carries_uri {received path : List Byte} {mem : ℕ → Byte} {host uri : ParsedHeader}
    {s' : FastCgi} (hpath : cgiContent .joining mem host uri = .ok path)
    (hstart : start path greeting (FastCgi.new received) = .ok () s') :
    ¬ Carries (text "SCRIPT_FILENAME") (host.bytes mem ++ text "/" ++ uri.bytes mem) s'.sent := by
  rw [carries_host_iff hpath hstart]
  intro hcut
  have hslash : (text "/").length = 1 := rfl
  have hshort := length_cString_le (host.bytes mem)
  rw [← hcut, List.length_append, List.length_append] at hshort
  omega

/-- For no request does a receiver read the `Host`, a slash and the URI. -/
theorem not_namesScript (received : List Byte) (table : HeaderTable) (mem : ℕ → Byte)
    (r : HttpRequest) : ¬ NamesScript received table mem r := by
  rintro ⟨host, path, s', -, hpath, hstart, hcarries⟩
  exact not_carries_uri hpath hstart hcarries

/-- The parser accepts a `POST` of `/a.php` to the host `h`, and `start` sends a string for it. -/
theorem not_namesScript_php : ∃ q,
    HttpParser.startingParser .sample (HttpParser.holding .zero
      (text "POST /a.php HTTP/1.1\r\nHost:h\r\n\r\n") (by decide)) = .ok .hpfContent q ∧
    q.requestResult.method = .hrPost ∧
    (q.requestResult.getValue .sample q.userBuffer.buffer (text "Host")).isSome ∧
    ¬ NamesScript [] .sample q.userBuffer.buffer q.requestResult := by
  have hrun : Op.returning (fun fault q ↦ decide (fault = .hpfContent) &&
        (decide (q.requestResult.method = .hrPost) &&
        (q.requestResult.getValue .sample q.userBuffer.buffer (text "Host")).isSome))
      (HttpParser.startingParser .sample (HttpParser.holding .zero
        (text "POST /a.php HTTP/1.1\r\nHost:h\r\n\r\n") (by decide))) = true := by
    decide +kernel
  obtain ⟨fault, q, hcall, htest⟩ := Op.of_returning hrun
  simp only [Bool.and_eq_true, decide_eq_true_eq] at htest
  obtain ⟨rfl, hpost, hhost⟩ := htest
  refine ⟨q, hcall, hpost, hhost, ?_⟩
  rintro ⟨host, path, s', -, hpath, hstart, hcarries⟩
  exact not_carries_uri hpath hstart hcarries

end REAProvider

end LWebServer
