import LWebServer.FastCgi.FastCgi

/-!
# Reading a reply

`ReadContent` reads a header, then what it takes to be the content and the padding of this record,
until the stream ends. A read gets as many bytes as it asks for, or all that are left.
-/

namespace LWebServer.FastCgi


/-- The variables of `ReadContent`: what has been read of `parsering`, and `Content`. -/
structure Reading where
  parsering : List Byte
  content : List Byte

/-- `sizeof Trash` -/
def trashLen : ℕ := 128

/-- `read` -/
def read (count : ℕ) : Call (List Byte) := do
  let s ← get
  set { s with received := s.received.drop count }
  return s.received.take count

/-- `read` into an array of `size` bytes, and the assertion that it got what it had asked for. -/
def readExactly (size count : ℕ) : Call (List Byte) := do
  let got ← read count
  if size < got.length then
    throw .undefinedBehaviour
  if got.length ≠ count then
    throw .assertion
  return got

/-- `FindStart`, which does not know where the array ends. -/
def findStart : List Byte → Except Fault (Option (List Byte))
  | [] => .error .undefinedBehaviour
  | ch :: data =>
    if ch = 0 then .ok none
    else if ch = ascii '<' then .ok (some (ch :: data))
    else findStart data

def getContent (data : List Byte) : Call Unit := fun s ↦
  if s.htmlFlag then .ok () s
  else match findStart data with
    | .error fault => .error fault s
    | .ok none => .ok () s
    | .ok (some pt) =>
      -- the loop from `pt` to the NUL does nothing else
      if 0 ∈ pt then .ok () { s with htmlFlag := true }
      else .error .undefinedBehaviour { s with htmlFlag := true }

/-- A byte of `parsering`, which has no value until it is read. -/
def field (r : Reading) (index : ℕ) : Call Byte :=
  match r.parsering[index]? with
  | none => throw .undefinedBehaviour
  | some b => return b

/-- The content of the record at hand, in `Content`. -/
def readBody (r : Reading) : Call (List Byte) := do
  let contentLength := twoBytes (← field r 4) (← field r 5)
  let got ← readExactly contentBufferLen contentLength
  return got ++ List.replicate (contentBufferLen - got.length) 0

/-- The padding of the record at hand. -/
def readPadding (r : Reading) : Call Unit := do
  let paddingLength := (← field r 6).toNat
  if 0 < paddingLength then
    let _ ← readExactly trashLen paddingLength

/-- The body of the loop of `ReadContent`. -/
def readRecord (r : Reading) : Call Reading := do
  let type := (← field r 1).toNat
  if type = fcgiStdout then
    let content ← readBody r
    getContent content
    readPadding r
    return { r with content := content }
  else if type = fcgiStderr then
    let content ← readBody r
    readPadding r
    return { r with content := content }
  else if type = fcgiStderr then
    let _ ← readExactly 8 8
    return r
  else return r

/-- A header is read over the last one. -/
def nextHeader (r : Reading) (s : FastCgi) : Reading × FastCgi :=
  let got := s.received.take fcgiHeaderLen
  ({ r with parsering := got ++ r.parsering.drop got.length },
    { s with
      received := s.received.drop fcgiHeaderLen
      headers := s.headers ++ [s.received] })

/-! ## Every turn reads something -/

/-- A call that reads from the socket at most. -/
def Consumes {α : Type} (f : Call α) : Prop :=
  ∀ s a s', f s = .ok a s' → s'.received <:+ s.received ∧ s'.headers = s.headers

theorem consumes_return {α : Type} (a : α) : Consumes (pure a : Call α) := by
  intro s a' s' hok
  cases hok
  exact ⟨List.suffix_refl _, rfl⟩

theorem consumes_throw {α : Type} (fault : Fault) : Consumes (throw fault : Call α) := by
  intro s a s' hok
  cases hok

theorem consumes_bind {α β : Type} {f : Call α} {g : α → Call β} (hf : Consumes f)
    (hg : ∀ a, Consumes (g a)) : Consumes (f >>= g) := by
  intro s b s' hok
  obtain ⟨a, t, hfirst, hsecond⟩ := bind_eq_ok.mp hok
  obtain ⟨hsuffix, hheaders⟩ := hf s a t hfirst
  obtain ⟨hsuffix', hheaders'⟩ := hg a t b s' hsecond
  exact ⟨hsuffix'.trans hsuffix, hheaders'.trans hheaders⟩

theorem consumes_ite {α : Type} {p : Prop} [Decidable p] {f g : Call α} (hf : Consumes f)
    (hg : Consumes g) : Consumes (if p then f else g) := by
  split
  · exact hf
  · exact hg

theorem consumes_read (count : ℕ) : Consumes (read count) := by
  intro s got s' hok
  cases hok
  exact ⟨List.drop_suffix count s.received, rfl⟩

theorem consumes_readExactly (size count : ℕ) : Consumes (readExactly size count) :=
  consumes_bind (consumes_read count) fun _ ↦
    consumes_ite (consumes_bind (consumes_throw _) fun _ ↦ consumes_ite
      (consumes_bind (consumes_throw _) fun _ ↦ consumes_return _) (consumes_return _))
    (consumes_ite (consumes_bind (consumes_throw _) fun _ ↦ consumes_return _) (consumes_return _))

theorem consumes_field (r : Reading) (index : ℕ) : Consumes (field r index) := by
  unfold field
  split
  · exact consumes_throw _
  · exact consumes_return _

theorem consumes_getContent (data : List Byte) : Consumes (getContent data) := by
  intro s a s' hok
  unfold getContent at hok
  split at hok
  next =>
    cases hok
    exact ⟨List.suffix_refl _, rfl⟩
  next =>
    split at hok
    next => cases hok
    next =>
      cases hok
      exact ⟨List.suffix_refl _, rfl⟩
    next =>
      split at hok <;> cases hok
      exact ⟨List.suffix_refl _, rfl⟩

theorem consumes_readBody (r : Reading) : Consumes (readBody r) :=
  consumes_bind (consumes_field r 4) fun _ ↦ consumes_bind (consumes_field r 5) fun _ ↦
    consumes_bind (consumes_readExactly _ _) fun _ ↦ consumes_return _

theorem consumes_readPadding (r : Reading) : Consumes (readPadding r) :=
  consumes_bind (consumes_field r 6) fun _ ↦
    consumes_ite (consumes_bind (consumes_readExactly _ _) fun _ ↦ consumes_return _)
      (consumes_return _)

theorem consumes_readRecord (r : Reading) : Consumes (readRecord r) :=
  consumes_bind (consumes_field r 1) fun _ ↦
    consumes_ite (consumes_bind (consumes_readBody r) fun content ↦
      consumes_bind (consumes_getContent content) fun _ ↦
        consumes_bind (consumes_readPadding r) fun _ ↦ consumes_return _)
    (consumes_ite (consumes_bind (consumes_readBody r) fun _ ↦
      consumes_bind (consumes_readPadding r) fun _ ↦ consumes_return _)
    (consumes_ite (consumes_bind (consumes_readExactly 8 8) fun _ ↦ consumes_return _)
      (consumes_return _)))

/-- The loop of `ReadContent`. -/
def readRecords (r : Reading) (s : FastCgi) : EStateM.Result Fault FastCgi Reading :=
  if _hempty : s.received = [] then .ok r s
  else
    match _hrecord : readRecord (nextHeader r s).1 (nextHeader r s).2 with
    | .error fault s' => .error fault s'
    | .ok r' s' => readRecords r' s'
termination_by s.received.length
decreasing_by
  have hsuffix := (consumes_readRecord _ _ _ _ _hrecord).1.length_le
  have hpos := List.length_pos_iff.mpr _hempty
  simp only [nextHeader, List.length_drop, fcgiHeaderLen] at hsuffix
  omega

/-- `ReadContent`, which returns `Content` as a `std::string`. -/
def readContent : Call (List Byte) := do
  let r ← readRecords ⟨[], List.replicate contentBufferLen 0⟩
  if 0 ∈ r.content then
    return cString r.content
  else throw .undefinedBehaviour

end LWebServer.FastCgi
