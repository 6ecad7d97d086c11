import LWebServer.Http.Request
import Mathlib.Data.List.Perm.Subperm
import Mathlib.Data.List.Nodup

/-!
# The header map of one parse

Entries of the header map are views, and `emplace` keeps an old entry that compares equal. `Stored`
says what the map holds while a head is parsed: behind the entries left over from earlier parses
stand those of the lines read so far.
-/

namespace LWebServer

open Memory

/-- The texts that the entries of the header map designate. -/
def contents (mem : ℕ → Byte) (entries : List HeaderEntry) : List (List Byte × List Byte) :=
  entries.map fun entry ↦ (entry.1.bytes mem, entry.2.bytes mem)

/-- Both views of an entry lie below `limit`, and the name is not empty. -/
structure EntryBelow (mem : ℕ → Byte) (limit : ℕ) (entry : HeaderEntry) : Prop where
  named : entry.1.bytes mem ≠ []
  name : entry.1.Designates mem limit (entry.1.bytes mem)
  value : entry.2.Designates mem limit (entry.2.bytes mem)

/-- The header map: behind the entries of earlier parses stand those of the lines kept, in order.
A line is dropped only for an entry of the same name, and none is dropped where the table tells
places apart. -/
structure StoredWith (table : HeaderTable) (size : ℕ) (stale fresh : List HeaderEntry)
    (known : List (List Byte)) (mem : ℕ → Byte) (limit : ℕ) (entries : List HeaderEntry)
    (lines : List (List Byte × List Byte)) : Prop where
  entries_eq : entries = stale ++ fresh
  below : ∀ entry ∈ fresh, EntryBelow mem limit entry
  kept : (contents mem fresh).Sublist lines
  covers : ∀ line ∈ lines, line.1 ∈ (contents mem fresh).map Prod.fst ∨ line.1 ∈ known
  exact : stale = [] → table.Separates size → contents mem fresh = lines

/-- Some entries are those of the current parse. -/
def Stored (table : HeaderTable) (size : ℕ) (stale : List HeaderEntry) (known : List (List Byte))
    (mem : ℕ → Byte) (limit : ℕ) (entries : List HeaderEntry)
    (lines : List (List Byte × List Byte)) : Prop :=
  ∃ fresh, StoredWith table size stale fresh known mem limit entries lines

/-- The entries of earlier parses, read in the memory at hand, have names in `known`. -/
def Known (mem : ℕ → Byte) (stale : List HeaderEntry) (known : List (List Byte)) : Prop :=
  ∀ entry ∈ stale, (entry.1.bytes mem).length = entry.1.length ∧ entry.1.bytes mem ∈ known

theorem ne_zero_of_isHeader {ch : Byte} (hch : isHeader ch = true) : ch ≠ 0 := by
  rintro rfl
  revert hch
  decide

section

variable {mem mem' : ℕ → Byte} {limit limit' : ℕ}

theorem EntryBelow.bytes_eq {entry : HeaderEntry} (hbelow : EntryBelow mem limit entry)
    (hagree : ∀ i, i < limit → mem i = mem' i) :
    entry.1.bytes mem' = entry.1.bytes mem ∧ entry.2.bytes mem' = entry.2.bytes mem :=
  ⟨(hbelow.name.mono hagree le_rfl).bytes_eq, (hbelow.value.mono hagree le_rfl).bytes_eq⟩

theorem EntryBelow.mono {entry : HeaderEntry} (hbelow : EntryBelow mem limit entry)
    (hagree : ∀ i, i < limit → mem i = mem' i) (hlimit : limit ≤ limit') :
    EntryBelow mem' limit' entry := by
  obtain ⟨hname, hvalue⟩ := hbelow.bytes_eq hagree
  constructor
  · rw [hname]
    exact hbelow.named
  · rw [hname]
    exact hbelow.name.mono hagree hlimit
  · rw [hvalue]
    exact hbelow.value.mono hagree hlimit

theorem contents_congr {entries : List HeaderEntry}
    (hbelow : ∀ entry ∈ entries, EntryBelow mem limit entry)
    (hagree : ∀ i, i < limit → mem i = mem' i) : contents mem' entries = contents mem entries := by
  apply List.map_congr_left
  intro entry hentry
  obtain ⟨hname, hvalue⟩ := (hbelow entry hentry).bytes_eq hagree
  rw [hname, hvalue]

end

/-- Before the first line all entries are stale. -/
theorem stored_nil {table : HeaderTable} {size : ℕ} {mem : ℕ → Byte} {limit : ℕ}
    (stale : List HeaderEntry) (known : List (List Byte)) :
    Stored table size stale known mem limit stale [] :=
  ⟨[], by simp, by simp, by simp [contents], by simp, fun _ _ ↦ rfl⟩

namespace Stored

variable {table : HeaderTable} {size : ℕ} {stale entries : List HeaderEntry}
  {known : List (List Byte)} {mem : ℕ → Byte} {limit limit' : ℕ}
  {lines : List (List Byte × List Byte)}

/-- While the head has stored nothing, the memory does not matter. -/
theorem of_stale {mem' : ℕ → Byte} (hstored : Stored table size stale known mem limit entries lines)
    (hnone : entries = stale) (limit' : ℕ) :
    Stored table size stale known mem' limit' entries lines := by
  obtain ⟨fresh, hentries, hbelow, hkept, hcovers, hexact⟩ := hstored
  obtain rfl : fresh = [] := by simpa [hnone] using hentries
  exact ⟨[], hentries, fun _ hentry ↦ absurd hentry List.not_mem_nil, hkept, hcovers, hexact⟩

theorem mono {mem' : ℕ → Byte} (hstored : Stored table size stale known mem limit entries lines)
    (hagree : ∀ i, i < limit → mem i = mem' i) (hlimit : limit ≤ limit') :
    Stored table size stale known mem' limit' entries lines := by
  obtain ⟨fresh, hentries, hbelow, hkept, hcovers, hexact⟩ := hstored
  have hcontents := contents_congr hbelow hagree
  refine ⟨fresh, hentries, fun entry hentry ↦ (hbelow entry hentry).mono hagree hlimit, ?_, ?_, ?_⟩
  · rwa [hcontents]
  · rwa [hcontents]
  · rwa [hcontents]

/-- `emplace` drops a line only for an entry of the same name. -/
theorem store {r : HttpRequest} {v value : ParsedHeader} {name text : List Byte}
    (hstored : Stored table size stale known mem limit r.headerValue lines)
    (hknown : Known mem stale known) (hstart : v.header = some limit) (hlimit : limit ≤ limit')
    (hsize : limit' ≤ size) (hname : v.Designates mem limit' name)
    (hvalue : value.Designates mem limit' text) (hne : name ≠ [])
    (hchars : ∀ ch ∈ name, isHeader ch) :
    Stored table size stale known mem limit' (r.storeHeader table mem v value).headerValue
      (lines ++ [(name, text)]) := by
  obtain ⟨fresh, hentries, hbelow, hkept, hcovers, hexact⟩ := hstored
  have hlength : (v.bytes mem).length = v.length := by
    rw [hname.bytes_eq, hname.length_eq hne]
  have hnul : ∀ ch ∈ v.bytes mem, ch ≠ 0 := by
    rw [hname.bytes_eq]
    exact fun ch hch ↦ ne_zero_of_isHeader (hchars ch hch)
  have hbelow' : ∀ entry ∈ fresh, EntryBelow mem limit' entry := fun entry hentry ↦
    (hbelow entry hentry).mono (fun _ _ ↦ rfl) hlimit
  unfold HttpRequest.storeHeader
  split_ifs with hdup
  · -- the line is dropped
    obtain ⟨entry, hentry, hequal⟩ := List.any_eq_true.mp hdup
    rw [Bool.and_eq_true] at hequal
    obtain ⟨hprobe, hequal⟩ := hequal
    rw [hentries, List.mem_append] at hentry
    refine ⟨fresh, hentries, hbelow', hkept.trans (List.sublist_append_left _ _), ?_, ?_⟩
    · intro line hline
      rcases List.mem_append.mp hline with hold | hnew
      · exact hcovers line hold
      · obtain rfl : line = (name, text) := by simpa using hnew
        have hwhole : (entry.1.bytes mem).length = entry.1.length := by
          rcases hentry with hentry | hentry
          · exact (hknown entry hentry).1
          · have hnamed := (hbelow entry hentry).named
            exact ((hbelow entry hentry).name.length_eq hnamed).symm
        have hbytes := ParsedHeader.bytes_eq_of_equal hwhole hlength hnul hequal
        rw [hname.bytes_eq] at hbytes
        rcases hentry with hentry | hentry
        · exact .inr (hbytes ▸ (hknown entry hentry).2)
        · left
          rw [← hbytes, contents, List.map_map]
          exact List.mem_map.mpr ⟨entry, hentry, rfl⟩
    · -- entries kept before lie below the name of this line, so the table does not compare them
      intro hnil hseparates
      exfalso
      subst hnil
      obtain hentry : entry ∈ fresh := by simpa using hentry
      obtain ⟨spot, hspot, hend⟩ :=
        (hbelow entry hentry).name.header_isSome (hbelow entry hentry).named
      obtain ⟨spot', hspot', hend'⟩ := hname.header_isSome hne
      obtain rfl : limit = spot' := by simpa using hstart.symm.trans hspot'
      have hentryPos : 0 < entry.1.length := by
        rw [(hbelow entry hentry).name.length_eq (hbelow entry hentry).named]
        exact List.length_pos_of_ne_nil (hbelow entry hentry).named
      have hvPos : 0 < v.length := by
        rw [hname.length_eq hne]
        exact List.length_pos_of_ne_nil hne
      have hlengths : entry.1.length = v.length := by
        unfold ParsedHeader.equal at hequal
        rw [Bool.and_eq_true, decide_eq_true_eq] at hequal
        exact hequal.1
      have hfalse := hseparates limit spot v.length (by omega) (by omega) (by omega)
      have hv : v = ⟨some limit, v.length⟩ := by rw [← hstart]
      have hentry1 : entry.1 = ⟨some spot, v.length⟩ := by rw [← hspot, ← hlengths]
      rw [hentry1, hv, hfalse] at hprobe
      exact absurd hprobe (by decide)
  · refine ⟨fresh ++ [(v, value)], ?_, ?_, ?_, ?_, ?_⟩
    · simp [hentries]
    · intro entry hentry
      rcases List.mem_append.mp hentry with hold | hnew
      · exact hbelow' entry hold
      · obtain rfl : entry = (v, value) := by simpa using hnew
        exact ⟨by rwa [hname.bytes_eq], by rwa [hname.bytes_eq], by rwa [hvalue.bytes_eq]⟩
    all_goals rw [contents, List.map_append, ← contents, List.map_singleton, hname.bytes_eq,
      hvalue.bytes_eq]
    · exact hkept.append (List.Sublist.refl _)
    · intro line hline
      rw [List.map_append, List.mem_append, List.map_singleton, List.mem_singleton]
      rcases List.mem_append.mp hline with hold | hnew
      · rcases hcovers line hold with hkept | hknown
        · exact .inl (.inl hkept)
        · exact .inr hknown
      · obtain rfl : line = (name, text) := by simpa using hnew
        exact .inl (.inr rfl)
    · intro hnil hseparates
      rw [hexact hnil hseparates]

/-- On an empty map nothing is lost of lines with distinct names. -/
theorem contents_eq (hstored : Stored table size [] [] mem limit entries lines)
    (hdistinct : (lines.map Prod.fst).Nodup) : contents mem entries = lines := by
  obtain ⟨fresh, hentries, -, hkept, hcovers, -⟩ := hstored
  rw [List.nil_append] at hentries
  rw [hentries]
  apply hkept.eq_of_length_le
  have hsubset : lines.map Prod.fst ⊆ (contents mem fresh).map Prod.fst := by
    intro name hname
    obtain ⟨line, hline, rfl⟩ := List.mem_map.mp hname
    simpa using hcovers line hline
  simpa using (List.subperm_of_subset hdistinct hsubset).length_le

theorem whole (hstored : Stored table size stale known mem limit entries lines)
    (hstale : Known mem stale known) :
    ∀ entry ∈ entries, (entry.1.bytes mem).length = entry.1.length := by
  obtain ⟨fresh, hentries, hbelow, -⟩ := hstored
  intro entry hentry
  rw [hentries, List.mem_append] at hentry
  rcases hentry with hentry | hentry
  · exact (hstale entry hentry).1
  · exact ((hbelow entry hentry).name.length_eq (hbelow entry hentry).named).symm

end Stored

/-- `Get_Value` finds the values of the lines under their names, and nothing else. -/
structure HttpRequest.Recalls (table : HeaderTable) (mem : ℕ → Byte) (r : HttpRequest)
    (lines : List (List Byte × List Byte)) : Prop where
  own : ∀ line ∈ lines, ∃ v, r.getValue table mem line.1 = some v ∧ v.bytes mem = line.2
  absent : ∀ name, name ∉ lines.map Prod.fst → r.getValue table mem name = none

section

variable {mem : ℕ → Byte} {r : HttpRequest} {lines : List (List Byte × List Byte)}

/-- Entries that stand for lines of distinct names, one at least for each. -/
theorem recalls_of_subset (table : HeaderTable)
    (hwhole : ∀ entry ∈ r.headerValue, (entry.1.bytes mem).length = entry.1.length)
    (hdistinct : (lines.map Prod.fst).Nodup) (hown : contents mem r.headerValue ⊆ lines)
    (hcovers : lines.map Prod.fst ⊆ (contents mem r.headerValue).map Prod.fst) :
    r.Recalls table mem lines := by
  have hline (entry : HeaderEntry) (hentry : entry ∈ r.headerValue) :
      (entry.1.bytes mem, entry.2.bytes mem) ∈ lines :=
    hown (List.mem_map.mpr ⟨entry, hentry, rfl⟩)
  constructor
  · intro line hmem
    rcases HttpRequest.getValue_spec table hwhole line.1 with
      ⟨entry, hentry, hname, hget⟩ | ⟨hnone, -⟩
    · refine ⟨entry.2, hget, ?_⟩
      exact congrArg Prod.snd (List.inj_on_of_nodup_map hdistinct (hline entry hentry) hmem hname)
    · exfalso
      have hname := hcovers (List.mem_map.mpr ⟨line, hmem, rfl⟩)
      rw [contents, List.map_map] at hname
      obtain ⟨entry, hentry, hsame⟩ := List.mem_map.mp hname
      exact hnone entry hentry hsame
  · intro name hname
    rcases HttpRequest.getValue_spec table hwhole name with ⟨entry, hentry, rfl, -⟩ | ⟨-, hnone⟩
    · exact absurd (List.mem_map.mpr ⟨_, hline entry hentry, rfl⟩) hname
    · exact hnone

/-- Some order of iteration has an entry of the map before all others. -/
theorem exists_getValue_eq (table : HeaderTable) {entry : HeaderEntry}
    (hentry : entry ∈ r.headerValue) (hwhole : (entry.1.bytes mem).length = entry.1.length) :
    ∃ order order_perm, r.getValue { table with order := order, order_perm := order_perm } mem
      (entry.1.bytes mem) = some entry.2 := by
  classical
  refine ⟨fun entries ↦ entries.filter (· = entry) ++ entries.filter fun other ↦ !(other = entry),
    fun entries ↦ List.filter_append_perm _ entries, ?_⟩
  obtain ⟨more, hfront⟩ : ∃ more, r.headerValue.filter (· = entry) = entry :: more := by
    have hmem : entry ∈ r.headerValue.filter (· = entry) := by simpa using hentry
    obtain ⟨first, more, hcons⟩ := List.exists_cons_of_ne_nil (List.ne_nil_of_mem hmem)
    have hfirst : first ∈ r.headerValue.filter (· = entry) := hcons ▸ List.mem_cons_self
    obtain rfl : first = entry := by simpa using (List.mem_filter.mp hfirst).2
    exact ⟨more, hcons⟩
  have hequal : entry.1.parsedHeaderIsEqual mem (entry.1.bytes mem) = true :=
    (ParsedHeader.parsedHeaderIsEqual_iff mem hwhole).mpr rfl
  unfold HttpRequest.getValue
  dsimp only
  rw [hfront, List.cons_append]
  simp only [List.find?_cons, hequal, Option.map_some]

/-- `Get_Value` recalls the lines in every order of iteration exactly if the entries stand for
lines, one at least for each. -/
theorem recalls_iff (table : HeaderTable)
    (hwhole : ∀ entry ∈ r.headerValue, (entry.1.bytes mem).length = entry.1.length)
    (hdistinct : (lines.map Prod.fst).Nodup) :
    (∀ order order_perm, r.Recalls { table with order := order, order_perm := order_perm } mem
      lines) ↔
      contents mem r.headerValue ⊆ lines ∧
        lines.map Prod.fst ⊆ (contents mem r.headerValue).map Prod.fst := by
  constructor
  · intro hrecalls
    constructor
    · intro line hline
      obtain ⟨entry, hentry, rfl⟩ := List.mem_map.mp hline
      obtain ⟨order, order_perm, hget⟩ := exists_getValue_eq table hentry (hwhole entry hentry)
      obtain ⟨hown, habsent⟩ := hrecalls order order_perm
      by_cases hname : entry.1.bytes mem ∈ lines.map Prod.fst
      · obtain ⟨line, hmem, hsame⟩ := List.mem_map.mp hname
        obtain ⟨v, hv, hvalue⟩ := hown line hmem
        rw [hsame, hget] at hv
        cases hv
        have hpair : line = (entry.1.bytes mem, entry.2.bytes mem) := Prod.ext hsame hvalue.symm
        exact hpair ▸ hmem
      · rw [habsent _ hname] at hget
        cases hget
    · intro name hname
      obtain ⟨line, hmem, rfl⟩ := List.mem_map.mp hname
      obtain ⟨v, hv, -⟩ := (hrecalls table.order table.order_perm).own line hmem
      rcases HttpRequest.getValue_spec table hwhole line.1 with
        ⟨entry, hentry, hsame, -⟩ | ⟨-, hnone⟩
      · rw [contents, List.map_map]
        exact List.mem_map.mpr ⟨entry, hentry, hsame⟩
      · rw [hnone] at hv
        cases hv
  · rintro ⟨hown, hcovers⟩ order order_perm
    exact recalls_of_subset _ hwhole hdistinct hown hcovers

end

end LWebServer
