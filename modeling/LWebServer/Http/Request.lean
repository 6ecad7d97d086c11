import LWebServer.Http.ParsedHeader

/-!
# The parsed request

`HttpRequest` collects what the parser found. Its header map is keyed by views that are hashed by
address and compared by content, so what the standard library does with two keys of equal content
and different hash is left open: `HeaderTable` is that freedom.
-/

namespace LWebServer

/-- An entry of the header map: the view of a name and the view of its value. -/
abbrev HeaderEntry := ParsedHeader × ParsedHeader

/-- What the library decides about an `unordered_map<ParsedHeader, ParsedHeader>`: the two
`std::hash` functions, which stored keys a new key is compared with (those of equal hash at
least), and the order of iteration. -/
structure HeaderTable where
  hashPtr : Option ℕ → ℕ
  hashSize : ℕ → ℕ
  probes : ℕ → ℕ → Bool
  probes_self : ∀ hash, probes hash hash = true
  order : List HeaderEntry → List HeaderEntry
  order_perm : ∀ entries, (order entries).Perm entries

namespace HeaderTable

/-- `ParseHeaderHash`. -/
def parseHeaderHash (table : HeaderTable) (v : ParsedHeader) : ℕ :=
  (table.hashPtr v.header + table.hashSize v.length) % 2 ^ 64

/-- Two keys of one length at different places of an array are never compared, so neither is taken
for the other. -/
def Separates (table : HeaderTable) (size : ℕ) : Prop :=
  ∀ spot spot' length, spot < size → spot' < size → spot ≠ spot' →
    table.probes (table.parseHeaderHash ⟨some spot, length⟩)
      (table.parseHeaderHash ⟨some spot', length⟩) = false

/-- The GNU library: hash codes are the address and the length themselves, only keys of equal
hash code are compared; iteration runs through the entries in the order given. -/
def gnu (base : ℕ) (order : List HeaderEntry → List HeaderEntry)
    (order_perm : ∀ entries, (order entries).Perm entries) : HeaderTable where
  hashPtr := fun spot ↦ match spot with
    | some spot => base + spot
    | none => 0
  hashSize := id
  probes := fun a b ↦ a = b
  probes_self := by simp
  order := order
  order_perm := order_perm

theorem gnu_separates (base : ℕ) {order : List HeaderEntry → List HeaderEntry}
    {order_perm : ∀ entries, (order entries).Perm entries} {size : ℕ} (hsize : size ≤ 2 ^ 64) :
    (gnu base order order_perm).Separates size := by
  intro spot spot' length hspot hspot' hne
  simp only [gnu, parseHeaderHash, id_eq, decide_eq_false_iff_not]
  omega

/-- The table of a buffer at address 0 that iterates in the order of insertion. -/
def sample : HeaderTable := gnu 0 id fun _ ↦ .refl _

end HeaderTable

/-- `ws::HttpRequest`. `requestBuffer` says whether `Request_Buffer_` has been set; it is a null
pointer before. -/
structure HttpRequest where
  versionMajor : ℤ
  versionMinor : ℤ
  contentLength : ℕ
  statusCode : HttpStatusCode
  method : HttpRequestMethod
  flag : HttpFlag
  fault : HttpParserFault
  uri : ParsedHeader
  requestBuffer : Bool
  headerValue : List HeaderEntry

namespace HttpRequest

/-- A request all of whose members are zero. -/
def zero : HttpRequest where
  versionMajor := 0
  versionMinor := 0
  contentLength := 0
  statusCode := .hscInit
  method := .hrGet
  flag := .close
  fault := .hpfOK
  uri := ⟨none, 0⟩
  requestBuffer := false
  headerValue := []

/-- `HttpRequest()` in memory with the given content: most members are left as they are. -/
def new (memory : HttpRequest) : HttpRequest :=
  { memory with requestBuffer := false, headerValue := [] }

/-- `Store_Header`: `emplace`, which keeps an entry that compares equal. -/
def storeHeader (table : HeaderTable) (mem : ℕ → Byte) (header value : ParsedHeader)
    (r : HttpRequest) : HttpRequest :=
  if r.headerValue.any fun entry ↦
      table.probes (table.parseHeaderHash header) (table.parseHeaderHash entry.1) &&
        entry.1.equal mem header
  then r
  else { r with headerValue := r.headerValue ++ [(header, value)] }

/-- `Get_Value`: the first entry, in iteration order, whose name has the given bytes; `none` is
the `std::invalid_argument`. -/
def getValue (table : HeaderTable) (mem : ℕ → Byte) (r : HttpRequest) (header : List Byte) :
    Option ParsedHeader :=
  ((table.order r.headerValue).find? fun entry ↦
    entry.1.parsedHeaderIsEqual mem header).map Prod.snd

/-- `Get_Value` finds an entry of the name wherever there is one. -/
theorem getValue_spec (table : HeaderTable) {mem : ℕ → Byte} {r : HttpRequest}
    (hwhole : ∀ entry ∈ r.headerValue, (entry.1.bytes mem).length = entry.1.length)
    (name : List Byte) :
    (∃ entry ∈ r.headerValue, entry.1.bytes mem = name ∧
      r.getValue table mem name = some entry.2) ∨
    ((∀ entry ∈ r.headerValue, entry.1.bytes mem ≠ name) ∧ r.getValue table mem name = none) := by
  have hperm := table.order_perm r.headerValue
  unfold getValue
  cases hfind : (table.order r.headerValue).find? fun entry ↦
      entry.1.parsedHeaderIsEqual mem name with
  | some entry =>
    left
    have hmem := hperm.mem_iff.mp (List.mem_of_find?_eq_some hfind)
    have hequal := List.find?_some hfind
    exact ⟨entry, hmem, (ParsedHeader.parsedHeaderIsEqual_iff mem (hwhole entry hmem)).mp hequal,
      rfl⟩
  | none =>
    right
    refine ⟨fun entry hentry hname ↦ ?_, rfl⟩
    have hnot := List.find?_eq_none.mp hfind entry (hperm.mem_iff.mpr hentry)
    exact hnot ((ParsedHeader.parsedHeaderIsEqual_iff mem (hwhole entry hentry)).mpr hname)

/-- `Request_good`. -/
def requestGood (r : HttpRequest) : Bool := r.fault = .hpfContent

end HttpRequest

end LWebServer
