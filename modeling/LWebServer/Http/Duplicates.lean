import LWebServer.Http.Request
import LWebServer.Library.Emplace

/-!
# Repeated headers

`Store_Header` leaves it to the map whether a name that is there already is kept once or twice. The
hash of a name is taken from its address, so two copies of a name are told apart by it, while
`strncmp` stops at a NUL, so two names that go on differently behind one are not.
-/

namespace LWebServer

namespace ParsedHeader

variable {mem : ℕ → Byte} {v para : ParsedHeader}

theorem length_bytes (hplaced : v.header ≠ none) : (v.bytes mem).length = v.length := by
  obtain ⟨spot, hspot⟩ := Option.ne_none_iff_exists'.mp hplaced
  simp [bytes, hspot]

theorem strncmpIsZero_refl (xs : List Byte) : strncmpIsZero xs xs = true := by
  induction xs with
  | nil => rfl
  | cons a as ih => simp [strncmpIsZero, ih]

theorem strncmpIsZero_symm {xs ys : List Byte} (hlength : xs.length = ys.length)
    (hzero : strncmpIsZero xs ys = true) : strncmpIsZero ys xs = true := by
  induction xs generalizing ys with
  | nil =>
    rw [List.length_eq_zero_iff.mp hlength.symm]
    rfl
  | cons a as ih =>
    cases ys with
    | nil => simp at hlength
    | cons b bs =>
      simp only [strncmpIsZero, Bool.and_eq_true, decide_eq_true_eq, Bool.or_eq_true] at hzero ⊢
      obtain ⟨rfl, hrest⟩ := hzero
      exact ⟨rfl, hrest.imp_right (ih (by simpa using hlength))⟩

/-- Two names that `operator==` takes for one. -/
def SameName (xs ys : List Byte) : Prop := xs.length = ys.length ∧ strncmpIsZero xs ys = true

theorem equal_iff (hv : v.header ≠ none) (hpara : para.header ≠ none) :
    v.equal mem para = true ↔ SameName (v.bytes mem) (para.bytes mem) := by
  rw [equal, Bool.and_eq_true, decide_eq_true_eq, SameName, length_bytes hv, length_bytes hpara]

end ParsedHeader

/-- What the header map may hold after some calls of `Store_Header` on an empty request. -/
def Emplaced (table : HeaderTable) (mem : ℕ → Byte) (calls entries : List HeaderEntry) : Prop :=
  Emplace.Run table.parseHeaderHash (fun v para ↦ v.equal mem para = true) calls entries

/-- Calls with equal names have equal hashes, and names that `operator==` takes for one are
equal. -/
def HeaderTable.Compatible (table : HeaderTable) (mem : ℕ → Byte) (calls : List HeaderEntry) :
    Prop :=
  Emplace.Compatible table.parseHeaderHash (fun v para ↦ v.equal mem para = true)
    (fun v ↦ v.bytes mem) calls

namespace HttpRequest

/-- The map has one entry at most for each name, and `Get_Value` returns the value that was stored
first under the name, in whatever order it goes through the map. -/
structure OneMeaning (mem : ℕ → Byte) (calls : List HeaderEntry) (r : HttpRequest) : Prop where
  distinct : (r.headerValue.map fun entry ↦ entry.1.bytes mem).Nodup
  getValue_eq : ∀ (table : HeaderTable) (name : List Byte), r.getValue table mem name =
    (calls.find? fun call ↦ call.1.bytes mem = name).map Prod.snd

variable {table : HeaderTable} {mem : ℕ → Byte} {calls : List HeaderEntry} {r : HttpRequest}

theorem getValue_eq_lookup (hplaced : ∀ entry ∈ r.headerValue, entry.1.header ≠ none)
    (table : HeaderTable) (name : List Byte) : r.getValue table mem name =
      Emplace.lookup (fun v : ParsedHeader ↦ v.bytes mem) (table.order r.headerValue) name := by
  unfold getValue Emplace.lookup
  rw [← List.head?_filter, ← List.head?_filter]
  congr 2
  apply List.filter_congr
  intro entry hentry
  have hmem := (table.order_perm r.headerValue).mem_iff.mp hentry
  rw [Bool.eq_iff_iff, decide_eq_true_eq]
  exact ParsedHeader.parsedHeaderIsEqual_iff mem (ParsedHeader.length_bytes (hplaced entry hmem))

theorem oneMeaning_iff_first (hplaced : ∀ entry ∈ r.headerValue, entry.1.header ≠ none) :
    r.OneMeaning mem calls ↔
      Emplace.First (fun v : ParsedHeader ↦ v.bytes mem) calls r.headerValue := by
  constructor
  · intro hmeaning
    refine ⟨hmeaning.distinct, fun name ↦ ?_⟩
    have hget := hmeaning.getValue_eq .sample name
    rw [getValue_eq_lookup hplaced] at hget
    exact hget
  · intro hfirst
    refine ⟨hfirst.distinct, fun table name ↦ ?_⟩
    rw [getValue_eq_lookup hplaced, Emplace.lookup_perm (table.order_perm _) hfirst.distinct]
    exact hfirst.lookup_eq name

/-- Whatever keys a table compares, `Store_Header` does what the map may do. -/
theorem emplaced_storeHeader (table : HeaderTable) (mem : ℕ → Byte) (memory : HttpRequest)
    (calls : List HeaderEntry) : Emplaced table mem calls (calls.foldl
      (fun r call ↦ r.storeHeader table mem call.1 call.2) (new memory)).headerValue := by
  induction calls using List.reverseRecOn with
  | nil => exact .nil
  | append_singleton calls call ih =>
    rw [List.foldl_append, List.foldl_cons, List.foldl_nil]
    refine Emplace.Run.snoc ih ?_
    unfold storeHeader
    split_ifs with hkept
    · obtain ⟨old, hmem, hequal⟩ := List.any_eq_true.mp hkept
      exact .kept ⟨old, hmem, (Bool.and_eq_true _ _ ▸ hequal).2⟩
    · refine .added fun old hmem hhash hequal ↦ hkept ?_
      rw [List.any_eq_true]
      refine ⟨old, hmem, ?_⟩
      rw [hhash, table.probes_self, Bool.true_and]
      exact hequal

/-- Whatever the map does, repeated headers have one meaning exactly if the names that are equal
have equal hashes and no two others are taken for one. -/
theorem oneMeaning_iff_compatible (table : HeaderTable) (mem : ℕ → Byte)
    (calls : List HeaderEntry) (hplaced : ∀ call ∈ calls, call.1.header ≠ none) :
    (∀ r : HttpRequest, Emplaced table mem calls r.headerValue → r.OneMeaning mem calls) ↔
      table.Compatible mem calls := by
  have hfirst : (∀ entries, Emplaced table mem calls entries →
      Emplace.First (fun v : ParsedHeader ↦ v.bytes mem) calls entries) ↔
        table.Compatible mem calls :=
    Emplace.first_iff
      (fun a ha b hb ↦ ParsedHeader.equal_iff (hplaced a ha) (hplaced b hb))
      (fun n ↦ ⟨rfl, ParsedHeader.strncmpIsZero_refl n⟩)
      (fun _ _ h ↦ ⟨h.1.symm, ParsedHeader.strncmpIsZero_symm h.1 h.2⟩)
  rw [← hfirst]
  constructor
  · intro hall entries hrun
    have hmeaning := hall { zero with headerValue := entries } hrun
    exact (oneMeaning_iff_first fun entry h ↦ hplaced entry (hrun.subset h)).mp hmeaning
  · intro hall r hrun
    exact (oneMeaning_iff_first fun entry h ↦ hplaced entry (hrun.subset h)).mpr (hall _ hrun)

/-! ## The GNU library -/

/-- Under the GNU library equal names have equal hashes where they are at the same address. -/
theorem compatible_gnu_iff {base : ℕ} {order : List HeaderEntry → List HeaderEntry}
    {order_perm : ∀ entries, (order entries).Perm entries}
    (hplaced : ∀ call ∈ calls, ∃ spot, call.1.header = some spot ∧ base + spot < 2 ^ 64) :
    (HeaderTable.gnu base order order_perm).Compatible mem calls ↔
      (∀ a ∈ calls, ∀ b ∈ calls, a.1.bytes mem = b.1.bytes mem → a.1.header = b.1.header) ∧
        ∀ a ∈ calls, ∀ b ∈ calls, a.1.equal mem b.1 = true → a.1.bytes mem = b.1.bytes mem := by
  have hhash : ∀ a ∈ calls, ∀ b ∈ calls, a.1.bytes mem = b.1.bytes mem →
      ((HeaderTable.gnu base order order_perm).parseHeaderHash a.1 =
        (HeaderTable.gnu base order order_perm).parseHeaderHash b.1 ↔
          a.1.header = b.1.header) := by
    intro a ha b hb hbytes
    obtain ⟨spot, hspot, hroom⟩ := hplaced a ha
    obtain ⟨spot', hspot', hroom'⟩ := hplaced b hb
    have hleft : (a.1.bytes mem).length = a.1.length :=
      ParsedHeader.length_bytes (by simp [hspot])
    have hright : (b.1.bytes mem).length = b.1.length :=
      ParsedHeader.length_bytes (by simp [hspot'])
    have hlength : a.1.length = b.1.length := by rw [← hleft, hbytes, hright]
    simp only [HeaderTable.parseHeaderHash, HeaderTable.gnu, hspot, hspot', hlength, id_eq,
      Option.some.injEq]
    omega
  constructor
  · rintro ⟨hequal, hnames⟩
    exact ⟨fun a ha b hb hbytes ↦ (hhash a ha b hb hbytes).mp (hequal a ha b hb hbytes), hnames⟩
  · rintro ⟨hplaces, hnames⟩
    exact ⟨fun a ha b hb hbytes ↦ (hhash a ha b hb hbytes).mpr (hplaces a ha b hb hbytes), hnames⟩

/-! ## A header sent twice -/

/-- The name `A` with the value `1`, and again with the value `2`. -/
def twice : ℕ → Byte := Memory.store (fun _ ↦ 0) 0 (text "A1A2")

def twiceCalls : List HeaderEntry := [(⟨some 0, 1⟩, ⟨some 1, 1⟩), (⟨some 2, 1⟩, ⟨some 3, 1⟩)]

/-- The names `A` and `B`, and `A` once more at the same place. -/
def again : ℕ → Byte := Memory.store (fun _ ↦ 0) 0 (text "A1B2")

def againCalls : List HeaderEntry :=
  [(⟨some 0, 1⟩, ⟨some 1, 1⟩), (⟨some 2, 1⟩, ⟨some 3, 1⟩), (⟨some 0, 1⟩, ⟨some 3, 1⟩)]

theorem oneMeaning_iff_compatible_again : HeaderTable.sample.Compatible again againCalls ∧
    ∀ r : HttpRequest, Emplaced .sample again againCalls r.headerValue →
      r.OneMeaning again againCalls := by
  have hcompatible : HeaderTable.sample.Compatible again againCalls := by
    apply (compatible_gnu_iff ?_).mpr
    · constructor
      · decide
      · decide
    · intro call hcall
      have hspot : ∀ call ∈ againCalls, call.1.header = some 0 ∨ call.1.header = some 2 := by decide
      rcases hspot call hcall with h | h
      · exact ⟨0, h, by decide⟩
      · exact ⟨2, h, by decide⟩
  exact ⟨hcompatible,
    (oneMeaning_iff_compatible .sample again againCalls (by decide)).mpr hcompatible⟩

/-- Both are kept. -/
theorem not_oneMeaning_twice : ∃ r : HttpRequest,
    Emplaced .sample twice twiceCalls r.headerValue ∧ ¬ r.OneMeaning twice twiceCalls := by
  refine ⟨_, emplaced_storeHeader .sample twice zero twiceCalls, fun hmeaning ↦ ?_⟩
  have hdistinct := hmeaning.distinct
  revert hdistinct
  decide

end HttpRequest

end LWebServer
