import LWebServer.Library.Calls
import LWebServer.Library.Decimal
import LWebServer.Log.ZoneData

/-!
# Zone files

A zone file is read field by field into the data of a zone. What has been read before an exception
stays there, and the file counts as read in any case. Memory is taken to be large enough for all
that a file asks for.
-/

namespace LWebServer

/-- What is left of the file, and the data that is filled. -/
structure ZoneReader where
  rest : List Byte
  data : ZoneData

namespace ZoneReader

abbrev Read := EStateM Fail ZoneReader

/-- `File::readBytes` -/
def readBytes (n : ℤ) : Read (List Byte) := fun s ↦
  if n < 0 then .error .undefinedBehaviour s
  else if n.toNat ≤ s.rest.length then
    .ok (s.rest.take n.toNat) { s with rest := s.rest.drop n.toNat }
  else .error .logicError { s with rest := [] }

/-- A `std::logic_error` is thrown unless a condition holds. -/
def require (condition : Prop) [Decidable condition] : Read Unit :=
  if condition then return else throw .logicError

/-- `be32toh`, as a signed number. -/
@[irreducible]
def int32 (bytes : List Byte) : ℤ :=
  Decimal.wrap 32 (bytes.foldl (fun x byte ↦ x * 256 + byte.toNat) 0 : ℕ)

/-- `File::readInt32` -/
def readInt32 : Read ℤ := do
  let bytes ← readBytes 4
  return int32 bytes

/-- `File::readUInt8` -/
def readUInt8 : Read ℕ := do
  let bytes ← readBytes 1
  return (bytes.getD 0 0).toNat

/-- A loop that reads so many values. -/
def repeatRead {α : Type} (read : Read α) : ℕ → Read (List α)
  | 0 => return []
  | count + 1 => do
    let value ← read
    let values ← repeatRead read count
    return value :: values

/-- `data->localtimes.push_back` -/
def pushLocaltime (found : Localtime) : Read Unit :=
  modify fun s ↦ { s with data.localtimes := s.data.localtimes ++ [found] }

/-- One turn of the loop over the kinds of local time. -/
def readLocaltime : Read Unit := do
  let gmtoff ← readInt32
  let isdst ← readUInt8
  let abbrind ← readUInt8
  pushLocaltime ⟨gmtoff, isdst ≠ 0, abbrind⟩

/-- One turn of the loop over the transitions. -/
def pushTransition (time : ℤ) (localIdx : ℕ) : Read Unit := fun s ↦
  match s.data.localtimes[localIdx]? with
  | some found =>
    .ok () { s with data.transitions :=
      s.data.transitions ++ [⟨time, time + found.gmtOffset, localIdx⟩] }
  | none => .error .undefinedBehaviour s

def pushTransitions : List (ℤ × ℕ) → Read Unit
  | [] => return
  | (time, localIdx) :: more => do
    pushTransition time localIdx
    pushTransitions more

/-- The part of `readTimeZoneFile` up to the abbreviations, whose number it gives. -/
def readTables : Read ℤ := do
  let head ← readBytes 4
  require (head = text "TZif")
  let _version ← readBytes 1
  let _reserved ← readBytes 15
  let _isgmtcnt ← readInt32
  let _isstdcnt ← readInt32
  let _leapcnt ← readInt32
  let timecnt ← readInt32
  let typecnt ← readInt32
  let charcnt ← readInt32
  -- `reserve` throws a `std::length_error`
  require (0 ≤ timecnt)
  let trans ← repeatRead readInt32 timecnt.toNat
  let localtimes ← repeatRead readUInt8 timecnt.toNat
  let _ ← repeatRead readLocaltime typecnt.toNat
  pushTransitions (trans.zip localtimes)
  return charcnt

/-- The `try` block of `readTimeZoneFile`. -/
def readFile : Read Unit := do
  let charcnt ← readTables
  let abbreviation ← readBytes charcnt
  modify fun s ↦ { s with data.abbreviation := abbreviation }

end ZoneReader

open ZoneReader

/-- `readTimeZoneFile`, for the bytes of the file if there is one; nothing if the behaviour is
undefined. -/
def readTimeZoneFile : Option (List Byte) → Option (Bool × ZoneData)
  | none => some (true, .new)
  | some bytes =>
    match readFile ⟨bytes, .new⟩ with
    | .ok _ s => some (true, s.data)
    | .error .undefinedBehaviour _ => none
    | .error _ s => some (true, s.data)

/-- The constructor of `TimeZone` from the name of a zone file. -/
def TimeZone.ofFile (zonefile : Option (List Byte)) : Option TimeZone :=
  (readTimeZoneFile zonefile).map fun (read, data) ↦ ⟨if read then some data else none⟩

namespace ZoneReader

/-! ## What a sequence of reads does -/

/-- A sequence returns if both parts do. -/
theorem bind_eq_ok {α β : Type} {f : Read α} {g : α → Read β} {s s' : ZoneReader} {b : β} :
    (f >>= g) s = .ok b s' ↔ ∃ a t, f s = .ok a t ∧ g a t = .ok b s' := Calls.bind_eq_ok

/-- What is left of a call that returns or throws. -/
def after {α : Type} : EStateM.Result Fail ZoneReader α → ZoneReader
  | .ok _ s => s
  | .error _ s => s

/-- A part of the reader that leaves the abbreviations as they are. -/
def KeepsAbbreviation {α : Type} (f : Read α) : Prop :=
  ∀ s, (after (f s)).data.abbreviation = s.data.abbreviation

theorem KeepsAbbreviation.bind {α β : Type} {f : Read α} {g : α → Read β}
    (hf : KeepsAbbreviation f) (hg : ∀ a, KeepsAbbreviation (g a)) :
    KeepsAbbreviation (f >>= g) := by
  intro s
  have hfirst := hf s
  cases hcall : f s with
  | ok a t =>
    rw [hcall] at hfirst
    rw [Calls.bind_of_ok hcall]
    exact (hg a t).trans hfirst
  | error e t =>
    rw [hcall] at hfirst
    rw [Calls.bind_of_error hcall]
    exact hfirst

theorem keepsAbbreviation_pure {α : Type} (a : α) : KeepsAbbreviation (pure a : Read α) :=
  fun _ ↦ rfl

theorem keepsAbbreviation_readBytes (n : ℤ) : KeepsAbbreviation (readBytes n) := by
  intro s
  unfold readBytes
  split_ifs <;> rfl

theorem keepsAbbreviation_readInt32 : KeepsAbbreviation readInt32 :=
  (keepsAbbreviation_readBytes 4).bind fun _ ↦ keepsAbbreviation_pure _

theorem keepsAbbreviation_readUInt8 : KeepsAbbreviation readUInt8 :=
  (keepsAbbreviation_readBytes 1).bind fun _ ↦ keepsAbbreviation_pure _

theorem KeepsAbbreviation.repeatRead {α : Type} {read : Read α} (hread : KeepsAbbreviation read)
    (count : ℕ) : KeepsAbbreviation (repeatRead read count) := by
  induction count with
  | zero => exact keepsAbbreviation_pure _
  | succ count ih => exact hread.bind fun _ ↦ ih.bind fun _ ↦ keepsAbbreviation_pure _

theorem keepsAbbreviation_readLocaltime : KeepsAbbreviation readLocaltime :=
  keepsAbbreviation_readInt32.bind fun _ ↦ keepsAbbreviation_readUInt8.bind fun _ ↦
    keepsAbbreviation_readUInt8.bind fun _ _ ↦ rfl

theorem keepsAbbreviation_pushTransitions (pairs : List (ℤ × ℕ)) :
    KeepsAbbreviation (pushTransitions pairs) := by
  induction pairs with
  | nil => exact keepsAbbreviation_pure ()
  | cons pair more ih =>
    refine KeepsAbbreviation.bind (fun s ↦ ?_) fun _ ↦ ih
    unfold pushTransition
    split <;> rfl

theorem keepsAbbreviation_require (condition : Prop) [Decidable condition] :
    KeepsAbbreviation (require condition) := by
  unfold require
  split_ifs
  · exact keepsAbbreviation_pure ()
  · exact fun _ ↦ rfl

theorem keepsAbbreviation_readTables : KeepsAbbreviation readTables :=
  (keepsAbbreviation_readBytes 4).bind fun _ ↦ (keepsAbbreviation_require _).bind fun _ ↦
  (keepsAbbreviation_readBytes 1).bind fun _ ↦ (keepsAbbreviation_readBytes 15).bind fun _ ↦
  keepsAbbreviation_readInt32.bind fun _ ↦ keepsAbbreviation_readInt32.bind fun _ ↦
  keepsAbbreviation_readInt32.bind fun _ ↦ keepsAbbreviation_readInt32.bind fun _ ↦
  keepsAbbreviation_readInt32.bind fun _ ↦ keepsAbbreviation_readInt32.bind fun _ ↦
  (keepsAbbreviation_require _).bind fun _ ↦
  (keepsAbbreviation_readInt32.repeatRead _).bind fun _ ↦
  (keepsAbbreviation_readUInt8.repeatRead _).bind fun _ ↦
  (keepsAbbreviation_readLocaltime.repeatRead _).bind fun _ ↦
  (keepsAbbreviation_pushTransitions _).bind fun _ ↦ keepsAbbreviation_pure _

/-- An exception leaves no abbreviations. -/
theorem abbreviation_of_error {s s' : ZoneReader} {e : Fail} (hempty : s.data.abbreviation = [])
    (herror : readFile s = .error e s') : s'.data.abbreviation = [] := by
  have hkeeps : KeepsAbbreviation (readTables >>= readBytes) :=
    keepsAbbreviation_readTables.bind keepsAbbreviation_readBytes
  have hcall : readFile = (readTables >>= readBytes) >>= fun abbreviation ↦
      modify fun s ↦ { s with data.abbreviation := abbreviation } := by
    rw [bind_assoc]
    rfl
  rw [hcall, Calls.bind_eq_error] at herror
  have hs := hkeeps s
  rcases herror with hread | ⟨abbreviation, t, -, hmodify⟩
  · rw [hread] at hs
    exact hs.trans hempty
  · cases hmodify

/-! ## What is read -/

/-- A read of so many bytes, which returns if there are as many. -/
def Reads {α : Type} (read : Read α) (width : ℕ) (value : List Byte → α) : Prop :=
  ∀ s a s', read s = .ok a s' ↔
    width ≤ s.rest.length ∧ a = value s.rest ∧ s' = { s with rest := s.rest.drop width }

theorem readBytes_eq_ok {n : ℤ} {s s' : ZoneReader} {bytes : List Byte} :
    readBytes n s = .ok bytes s' ↔ 0 ≤ n ∧ n.toNat ≤ s.rest.length ∧
      bytes = s.rest.take n.toNat ∧ s' = { s with rest := s.rest.drop n.toNat } := by
  unfold readBytes
  split_ifs with hneg hlong
  · simp [hneg]
  · rw [EStateM.Result.ok.injEq]
    constructor
    · rintro ⟨rfl, rfl⟩
      exact ⟨by omega, hlong, rfl, rfl⟩
    · rintro ⟨-, -, rfl, rfl⟩
      exact ⟨rfl, rfl⟩
  · simp [hlong]

theorem reads_readBytes (n : ℕ) : Reads (readBytes n) n fun rest ↦ rest.take n := by
  intro s bytes s'
  rw [readBytes_eq_ok]
  simp

/-- The result of a read can be turned into something else. -/
theorem Reads.map {α β : Type} {read : Read α} {width : ℕ} {value : List Byte → α}
    (hread : Reads read width value) (f : α → β) :
    Reads (do let a ← read; return f a) width fun rest ↦ f (value rest) := by
  intro s b s'
  rw [bind_eq_ok]
  constructor
  · rintro ⟨a, t, hfirst, hsecond⟩
    obtain ⟨hlong, rfl, rfl⟩ := (hread _ _ _).1 hfirst
    obtain ⟨rfl, rfl⟩ := EStateM.Result.ok.inj hsecond
    exact ⟨hlong, rfl, rfl⟩
  · rintro ⟨hlong, rfl, rfl⟩
    exact ⟨_, _, (hread _ _ _).2 ⟨hlong, rfl, rfl⟩, rfl⟩

theorem reads_readInt32 : Reads readInt32 4 fun rest ↦ int32 (rest.take 4) :=
  (reads_readBytes 4).map int32

theorem reads_readUInt8 : Reads readUInt8 1 fun rest ↦ (rest.getD 0 0).toNat := by
  have hread : Reads readUInt8 1 fun rest ↦ ((rest.take 1).getD 0 0).toNat :=
    (reads_readBytes 1).map fun bytes : List Byte ↦ (bytes.getD 0 0).toNat
  have hfirst (rest : List Byte) : (rest.take 1).getD 0 0 = rest.getD 0 0 := by
    cases rest <;> rfl
  simpa only [hfirst] using hread

/-- A loop of reads. -/
theorem Reads.repeatRead {α : Type} {read : Read α} {width : ℕ} {value : List Byte → α}
    (hread : Reads read width value) (count : ℕ) :
    Reads (repeatRead read count) (width * count) fun rest ↦
      (List.range count).map fun i ↦ value (rest.drop (width * i)) := by
  induction count with
  | zero =>
    intro s values s'
    rw [ZoneReader.repeatRead]
    change EStateM.Result.ok [] s = .ok values s' ↔ _
    rw [EStateM.Result.ok.injEq]
    constructor
    · rintro ⟨rfl, rfl⟩
      exact ⟨Nat.zero_le _, rfl, rfl⟩
    · rintro ⟨-, rfl, rfl⟩
      exact ⟨rfl, rfl⟩
  | succ count ih =>
    intro s values s'
    rw [ZoneReader.repeatRead, bind_eq_ok]
    have hsplit (rest : List Byte) :
        (List.range (count + 1)).map (fun i ↦ value (rest.drop (width * i))) =
          value rest :: (List.range count).map
            fun i ↦ value ((rest.drop width).drop (width * i)) := by
      rw [List.range_succ_eq_map, List.map_cons, List.map_map]
      simp [Function.comp_def, List.drop_drop, Nat.mul_succ, Nat.add_comm]
    dsimp only
    rw [hsplit, Nat.mul_succ]
    constructor
    · rintro ⟨a, t, hfirst, hmore⟩
      obtain ⟨hlong, rfl, rfl⟩ := (hread _ _ _).1 hfirst
      obtain ⟨hlongs, rfl, rfl⟩ := ((ih.map (List.cons (value s.rest))) _ _ _).1 hmore
      rw [List.length_drop] at hlongs
      exact ⟨by omega, rfl, by simp [List.drop_drop, Nat.add_comm]⟩
    · rintro ⟨hlong, rfl, rfl⟩
      refine ⟨_, _, (hread _ _ _).2 ⟨by omega, rfl, rfl⟩, ?_⟩
      refine ((ih.map (List.cons (value s.rest))) _ _ _).2 ⟨?_, rfl, ?_⟩
      · rw [List.length_drop]
        omega
      · simp [List.drop_drop, Nat.add_comm]

/-- A read before something else. -/
theorem Reads.bind_eq_ok {α β : Type} {read : Read α} {width : ℕ} {value : List Byte → α}
    (hread : Reads read width value) {g : α → Read β} {s s' : ZoneReader} {b : β} :
    (read >>= g) s = .ok b s' ↔
      width ≤ s.rest.length ∧ g (value s.rest) { s with rest := s.rest.drop width } = .ok b s' := by
  rw [ZoneReader.bind_eq_ok]
  constructor
  · rintro ⟨a, t, hfirst, hsecond⟩
    obtain ⟨hlong, rfl, rfl⟩ := (hread _ _ _).1 hfirst
    exact ⟨hlong, hsecond⟩
  · rintro ⟨hlong, hsecond⟩
    exact ⟨_, _, (hread _ _ _).2 ⟨hlong, rfl, rfl⟩, hsecond⟩

theorem require_bind_eq_ok {β : Type} {condition : Prop} [Decidable condition] {g : Unit → Read β}
    {s s' : ZoneReader} {b : β} :
    (require condition >>= g) s = .ok b s' ↔ condition ∧ g () s = .ok b s' := by
  rw [bind_eq_ok]
  unfold require
  constructor
  · rintro ⟨_, t, hfirst, hsecond⟩
    split_ifs at hfirst with hholds
    · obtain ⟨-, rfl⟩ := EStateM.Result.ok.inj hfirst
      exact ⟨hholds, hsecond⟩
    · cases hfirst
  · rintro ⟨hholds, hsecond⟩
    exact ⟨(), s, by rw [if_pos hholds]; rfl, hsecond⟩

/-- A kind of local time as the file has it. -/
def localtimeOf (rest : List Byte) : Localtime :=
  ⟨int32 (rest.take 4), (rest.getD 4 0).toNat ≠ 0, (rest.getD 5 0).toNat⟩

theorem getD_drop (rest : List Byte) (i j : ℕ) : (rest.drop i).getD j 0 = rest.getD (i + j) 0 := by
  rw [List.getD_eq_getElem?_getD, List.getElem?_drop, List.getD_eq_getElem?_getD]

/-- The reader behind a kind of local time. -/
def pushed (s : ZoneReader) : ZoneReader :=
  ⟨s.rest.drop 6, { s.data with localtimes := s.data.localtimes ++ [localtimeOf s.rest] }⟩

theorem readLocaltime_eq_ok {s s' : ZoneReader} :
    readLocaltime s = .ok () s' ↔ 6 ≤ s.rest.length ∧ s' = pushed s := by
  unfold readLocaltime
  rw [reads_readInt32.bind_eq_ok, reads_readUInt8.bind_eq_ok, reads_readUInt8.bind_eq_ok]
  simp only [List.drop_drop, List.length_drop, getD_drop]
  constructor
  · rintro ⟨hfour, hfive, hsix, hpush⟩
    obtain ⟨-, rfl⟩ := EStateM.Result.ok.inj hpush
    exact ⟨by omega, rfl⟩
  · rintro ⟨hlong, rfl⟩
    exact ⟨by omega, by omega, by omega, rfl⟩

/-- The kinds of local time as the file has them. -/
def localtimesOf (rest : List Byte) (count : ℕ) : List Localtime :=
  (List.range count).map fun i ↦ localtimeOf (rest.drop (6 * i))

theorem localtimesOf_succ (rest : List Byte) (count : ℕ) :
    localtimesOf rest (count + 1) = localtimeOf rest :: localtimesOf (rest.drop 6) count := by
  unfold localtimesOf
  rw [List.range_succ_eq_map, List.map_cons, List.map_map]
  simp [Function.comp_def, List.drop_drop, Nat.mul_succ, Nat.add_comm]

/-- The loop over the kinds of local time. -/
theorem repeatRead_readLocaltime {count : ℕ} {s s' : ZoneReader} :
    (∃ done, repeatRead readLocaltime count s = .ok done s') ↔ 6 * count ≤ s.rest.length ∧
      s' = ⟨s.rest.drop (6 * count),
        { s.data with localtimes := s.data.localtimes ++ localtimesOf s.rest count }⟩ := by
  induction count generalizing s with
  | zero =>
    constructor
    · rintro ⟨done, hdone⟩
      obtain ⟨-, rfl⟩ := EStateM.Result.ok.inj hdone
      exact ⟨Nat.zero_le _, by simp [localtimesOf]⟩
    · rintro ⟨-, rfl⟩
      exact ⟨[], by simp [localtimesOf]; rfl⟩
  | succ count ih =>
    simp only [ZoneReader.repeatRead, bind_eq_ok]
    constructor
    · rintro ⟨done, ⟨⟩, t, hfirst, more, u, hmore, hlast⟩
      obtain ⟨hlong, rfl⟩ := readLocaltime_eq_ok.1 hfirst
      obtain ⟨-, rfl⟩ := EStateM.Result.ok.inj hlast
      obtain ⟨hlongs, rfl⟩ := ih.1 ⟨more, hmore⟩
      rw [pushed, List.length_drop] at hlongs
      refine ⟨by omega, ?_⟩
      simp [pushed, localtimesOf_succ, List.drop_drop, Nat.mul_succ, Nat.add_comm]
    · rintro ⟨hlong, rfl⟩
      have hfirst : readLocaltime s = .ok () (pushed s) := readLocaltime_eq_ok.2 ⟨by omega, rfl⟩
      have hlongs : 6 * count ≤ (pushed s).rest.length := by
        rw [pushed, List.length_drop]
        omega
      obtain ⟨more, hmore⟩ := ih.2 ⟨hlongs, by
        simp [pushed, localtimesOf_succ, List.drop_drop, Nat.mul_succ, Nat.add_comm]⟩
      exact ⟨_, (), _, hfirst, more, _, hmore, rfl⟩

theorem readLocaltimes_bind_eq_ok {β : Type} {count : ℕ} {g : Read β} {s s' : ZoneReader} {b : β} :
    (repeatRead readLocaltime count >>= fun _ ↦ g) s = .ok b s' ↔ 6 * count ≤ s.rest.length ∧
      g ⟨s.rest.drop (6 * count),
        { s.data with localtimes := s.data.localtimes ++ localtimesOf s.rest count }⟩ =
          .ok b s' := by
  rw [bind_eq_ok]
  constructor
  · rintro ⟨done, t, hdone, hmore⟩
    obtain ⟨hlong, rfl⟩ := repeatRead_readLocaltime.1 ⟨done, hdone⟩
    exact ⟨hlong, hmore⟩
  · rintro ⟨hlong, hmore⟩
    obtain ⟨done, hdone⟩ := repeatRead_readLocaltime.2 ⟨hlong, rfl⟩
    exact ⟨done, _, hdone, hmore⟩

/-- A transition as it is put together. -/
def transitionOf (localtimes : List Localtime) (pair : ℤ × ℕ) : Transition :=
  ⟨pair.1, pair.1 + (localtimes[pair.2]?.map Localtime.gmtOffset).getD 0, pair.2⟩

/-- The loop over the transitions accesses one kind of local time for each. -/
theorem pushTransitions_eq_ok {pairs : List (ℤ × ℕ)} {s s' : ZoneReader} :
    pushTransitions pairs s = .ok () s' ↔
      (∀ pair ∈ pairs, pair.2 < s.data.localtimes.length) ∧
      s' = { s with data.transitions :=
        s.data.transitions ++ pairs.map (transitionOf s.data.localtimes) } := by
  induction pairs generalizing s with
  | nil =>
    constructor
    · intro hdone
      obtain ⟨-, rfl⟩ := EStateM.Result.ok.inj hdone
      exact ⟨fun _ hmem ↦ (List.not_mem_nil hmem).elim, by simp⟩
    · rintro ⟨-, rfl⟩
      simp only [List.map_nil, List.append_nil]
      rfl
  | cons pair more ih =>
    have hstep : pushTransitions (pair :: more) =
        pushTransition pair.1 pair.2 >>= fun _ ↦ pushTransitions more := rfl
    rw [hstep, bind_eq_ok]
    unfold pushTransition
    cases hfound : s.data.localtimes[pair.2]? with
    | none =>
      have hout := List.getElem?_eq_none_iff.1 hfound
      constructor
      · rintro ⟨_, t, hfirst, -⟩
        cases hfirst
      · rintro ⟨hin, -⟩
        have hpair := hin pair List.mem_cons_self
        omega
    | some found =>
      obtain ⟨hin, -⟩ := List.getElem?_eq_some_iff.1 hfound
      have htransition : transitionOf s.data.localtimes pair =
          ⟨pair.1, pair.1 + found.gmtOffset, pair.2⟩ := by
        rw [transitionOf, hfound]
        rfl
      constructor
      · rintro ⟨_, t, hfirst, hmore⟩
        obtain ⟨-, rfl⟩ := EStateM.Result.ok.inj hfirst
        obtain ⟨hothers, rfl⟩ := ih.1 hmore
        refine ⟨List.forall_mem_cons.2 ⟨hin, hothers⟩, ?_⟩
        simp [htransition]
      · rintro ⟨hall, rfl⟩
        refine ⟨(), _, rfl, ih.2 ⟨(List.forall_mem_cons.1 hall).2, ?_⟩⟩
        simp [htransition]

/-- The loops over the kinds of local time and over the transitions. -/
theorem readKinds_eq_ok {rest : List Byte} {kinds : ℕ} {pairs : List (ℤ × ℕ)} {charcnt count : ℤ}
    {s : ZoneReader} :
    (do let _ ← repeatRead readLocaltime kinds
        pushTransitions pairs
        return charcnt : Read ℤ) ⟨rest, .new⟩ = .ok count s ↔
      6 * kinds ≤ rest.length ∧ (∀ pair ∈ pairs, pair.2 < kinds) ∧ count = charcnt ∧
      s = ⟨rest.drop (6 * kinds),
        ⟨pairs.map (transitionOf (localtimesOf rest kinds)), localtimesOf rest kinds, []⟩⟩ := by
  have hlength : (localtimesOf rest kinds).length = kinds := by
    rw [localtimesOf, List.length_map, List.length_range]
  rw [readLocaltimes_bind_eq_ok, bind_eq_ok]
  simp only [ZoneData.new, List.nil_append]
  constructor
  · rintro ⟨hlong, ⟨⟩, t, hpush, hdone⟩
    obtain ⟨hall, rfl⟩ := pushTransitions_eq_ok.1 hpush
    obtain ⟨rfl, rfl⟩ := EStateM.Result.ok.inj hdone
    simp only [hlength] at hall
    exact ⟨hlong, hall, rfl, rfl⟩
  · rintro ⟨hlong, hall, rfl, rfl⟩
    refine ⟨hlong, (), _, pushTransitions_eq_ok.2 ⟨?_, rfl⟩, rfl⟩
    simpa only [hlength] using hall

/-! ## The layout of a zone file -/

/-- The number at a place of the file. -/
def int32At (bytes : List Byte) (place : ℕ) : ℤ := int32 ((bytes.drop place).take 4)

theorem int32_take_drop (bytes : List Byte) (place : ℕ) :
    int32 ((bytes.drop place).take 4) = int32At bytes place := by
  unfold int32At
  exact rfl

def timecnt (bytes : List Byte) : ℤ := int32At bytes 32

def typecnt (bytes : List Byte) : ℤ := int32At bytes 36

def charcnt (bytes : List Byte) : ℤ := int32At bytes 40

/-- The indices of the transitions. -/
def localtimeIdxOf (bytes : List Byte) : List ℕ :=
  (List.range (timecnt bytes).toNat).map fun i ↦
    (bytes.getD (44 + 4 * (timecnt bytes).toNat + i) 0).toNat

/-- The place of the kinds of local time. -/
def typesAt (bytes : List Byte) : ℕ := 44 + 5 * (timecnt bytes).toNat

/-- The place of the abbreviations. -/
def charsAt (bytes : List Byte) : ℕ := typesAt bytes + 6 * (typecnt bytes).toNat

/-- The kinds of local time of the file. -/
def localtimesIn (bytes : List Byte) : List Localtime :=
  localtimesOf (bytes.drop (typesAt bytes)) (typecnt bytes).toNat

/-- The times of the transitions with their indices. -/
def pairsOf (bytes : List Byte) : List (ℤ × ℕ) :=
  ((List.range (timecnt bytes).toNat).map fun i ↦ int32At bytes (44 + 4 * i)).zip
    (localtimeIdxOf bytes)

/-- The data of a file that is read to its end. -/
def dataOf (bytes : List Byte) : ZoneData where
  transitions := (pairsOf bytes).map (transitionOf (localtimesIn bytes))
  localtimes := localtimesIn bytes
  abbreviation := (bytes.drop (charsAt bytes)).take (charcnt bytes).toNat

/-- A file that is read to its end. -/
structure Complete (bytes : List Byte) : Prop where
  magic : bytes.take 4 = text "TZif"
  timecnt : 0 ≤ timecnt bytes
  charcnt : 0 ≤ charcnt bytes
  length : charsAt bytes + (ZoneReader.charcnt bytes).toNat ≤ bytes.length
  localtimeIdx : ∀ idx ∈ localtimeIdxOf bytes, idx < (typecnt bytes).toNat

theorem length_localtimesIn (bytes : List Byte) :
    (localtimesIn bytes).length = (typecnt bytes).toNat := by
  rw [localtimesIn, localtimesOf, List.length_map, List.length_range]

theorem map_snd_pairsOf (bytes : List Byte) :
    (pairsOf bytes).map Prod.snd = localtimeIdxOf bytes := by
  apply List.map_snd_zip
  rw [localtimeIdxOf, List.length_map, List.length_map]

/-- The header and the tables are read if the file is long enough for them and every index is that
of a kind of local time. -/
theorem readTables_eq_ok {bytes : List Byte} {count : ℤ} {s : ZoneReader} :
    readTables ⟨bytes, .new⟩ = .ok count s ↔
      bytes.take 4 = text "TZif" ∧ 0 ≤ timecnt bytes ∧ charsAt bytes ≤ bytes.length ∧
      (∀ idx ∈ localtimeIdxOf bytes, idx < (typecnt bytes).toNat) ∧ count = charcnt bytes ∧
      s = ⟨bytes.drop (charsAt bytes),
        ⟨(pairsOf bytes).map (transitionOf (localtimesIn bytes)), localtimesIn bytes, []⟩⟩ := by
  have hfour : Reads (readBytes 4) 4 fun rest ↦ rest.take 4 := reads_readBytes 4
  have hone : Reads (readBytes 1) 1 fun rest ↦ rest.take 1 := reads_readBytes 1
  have hfifteen : Reads (readBytes 15) 15 fun rest ↦ rest.take 15 := reads_readBytes 15
  have htypes : 44 + 4 * (timecnt bytes).toNat + (timecnt bytes).toNat = typesAt bytes := by
    unfold typesAt
    omega
  have htimecnt : int32At bytes 32 = timecnt bytes := rfl
  have htypecnt : int32At bytes 36 = typecnt bytes := rfl
  have hcharcnt : int32At bytes 40 = charcnt bytes := rfl
  have hchars : typesAt bytes + 6 * (typecnt bytes).toNat = charsAt bytes := rfl
  have hidx : (List.range (timecnt bytes).toNat).map (fun i ↦
      (bytes.getD (44 + 4 * (timecnt bytes).toNat + i) 0).toNat) = localtimeIdxOf bytes := rfl
  have hpairs : ((List.range (timecnt bytes).toNat).map fun i ↦ int32At bytes (44 + 4 * i)).zip
      (localtimeIdxOf bytes) = pairsOf bytes := rfl
  have hlocaltimes : localtimesOf (bytes.drop (typesAt bytes)) (typecnt bytes).toNat =
      localtimesIn bytes := rfl
  have hindices : (∀ pair ∈ pairsOf bytes, pair.2 < (typecnt bytes).toNat) ↔
      ∀ idx ∈ localtimeIdxOf bytes, idx < (typecnt bytes).toNat := by
    rw [← map_snd_pairsOf, List.forall_mem_map]
  unfold readTables
  rw [hfour.bind_eq_ok, require_bind_eq_ok, hone.bind_eq_ok, hfifteen.bind_eq_ok,
    reads_readInt32.bind_eq_ok, reads_readInt32.bind_eq_ok, reads_readInt32.bind_eq_ok,
    reads_readInt32.bind_eq_ok, reads_readInt32.bind_eq_ok, reads_readInt32.bind_eq_ok,
    require_bind_eq_ok, (reads_readInt32.repeatRead _).bind_eq_ok,
    (reads_readUInt8.repeatRead _).bind_eq_ok, readKinds_eq_ok]
  simp only [List.drop_drop, List.length_drop, getD_drop, int32_take_drop]
  simp only [Nat.reduceAdd, Nat.one_mul, Nat.add_zero]
  simp only [htimecnt, htypecnt, hcharcnt, htypes, hchars, hidx, hpairs, hlocaltimes, hindices]
  generalize localtimesIn bytes = kinds
  constructor
  · rintro ⟨-, hmagic, -, -, -, -, -, -, -, hheader, htimes, htrans, hidx, hkinds, hall, hcount,
      hstate⟩
    exact ⟨hmagic, htimes, by omega, hall, hcount, hstate⟩
  · rintro ⟨hmagic, htimes, hlong, hall, hcount, hstate⟩
    exact ⟨by omega, hmagic, by omega, by omega, by omega, by omega, by omega, by omega, by omega,
      by omega, htimes, by omega, by omega, by omega, hall, hcount, hstate⟩

/-- The abbreviations behind the tables. -/
theorem readChars_eq_ok {count : ℤ} {t s : ZoneReader} :
    (do let abbreviation ← readBytes count
        modify fun s ↦ { s with data.abbreviation := abbreviation } : Read Unit) t = .ok () s ↔
      0 ≤ count ∧ count.toNat ≤ t.rest.length ∧
      s = ⟨t.rest.drop count.toNat,
        { t.data with abbreviation := t.rest.take count.toNat }⟩ := by
  rw [bind_eq_ok]
  constructor
  · rintro ⟨abbreviation, u, hchars, hlast⟩
    obtain ⟨hnonneg, hlong, rfl, rfl⟩ := readBytes_eq_ok.1 hchars
    obtain ⟨-, rfl⟩ := EStateM.Result.ok.inj hlast
    exact ⟨hnonneg, hlong, rfl⟩
  · rintro ⟨hnonneg, hlong, rfl⟩
    exact ⟨_, _, readBytes_eq_ok.2 ⟨hnonneg, hlong, rfl, rfl⟩, rfl⟩

/-- The file is read to its end if it is complete. -/
theorem readFile_eq_ok {bytes : List Byte} {s : ZoneReader} :
    readFile ⟨bytes, .new⟩ = .ok () s ↔ Complete bytes ∧
      s = ⟨(bytes.drop (charsAt bytes)).drop (charcnt bytes).toNat, dataOf bytes⟩ := by
  unfold readFile
  rw [bind_eq_ok]
  simp only [readTables_eq_ok, readChars_eq_ok]
  constructor
  · rintro ⟨count, t, ⟨hmagic, htimes, hlength, hall, hcount, ht⟩, hnonneg, hlong, hs⟩
    subst hcount ht
    rw [List.length_drop] at hlong
    exact ⟨⟨hmagic, htimes, hnonneg, by omega, hall⟩, hs⟩
  · rintro ⟨hcomplete, hs⟩
    have hlength := hcomplete.length
    refine ⟨_, _, ⟨hcomplete.magic, hcomplete.timecnt, by omega, hcomplete.localtimeIdx, rfl, rfl⟩,
      hcomplete.charcnt, ?_, hs⟩
    rw [List.length_drop]
    omega

/-! ## Which files give usable data -/

/-- A complete file with a kind of local time, and with an abbreviation for each. -/
structure WellFormed (bytes : List Byte) : Prop extends Complete bytes where
  typecnt : 1 ≤ typecnt bytes
  arrbIdx : ∀ found ∈ localtimesIn bytes, found.arrbIdx < ZoneReader.charcnt bytes

theorem arrbIdx_nonneg {bytes : List Byte} {found : Localtime} (hmem : found ∈ localtimesIn bytes) :
    0 ≤ found.arrbIdx := by
  unfold localtimesIn localtimesOf at hmem
  obtain ⟨i, -, rfl⟩ := List.mem_map.1 hmem
  exact Int.natCast_nonneg _

theorem length_abbreviation {bytes : List Byte} (hcomplete : Complete bytes) :
    ((dataOf bytes).abbreviation.length : ℤ) = charcnt bytes := by
  have hlength := hcomplete.length
  have hnonneg := hcomplete.charcnt
  have htake : (dataOf bytes).abbreviation =
      (bytes.drop (charsAt bytes)).take (charcnt bytes).toNat := rfl
  rw [htake, List.length_take_of_le (by rw [List.length_drop]; omega)]
  omega

/-- The data of a complete file are usable if the file is well formed. -/
theorem indexed_dataOf_iff {bytes : List Byte} (hcomplete : Complete bytes) :
    (dataOf bytes).Indexed ↔ WellFormed bytes := by
  have hlength := length_localtimesIn bytes
  have hlocaltimes : (dataOf bytes).localtimes = localtimesIn bytes := rfl
  constructor
  · intro hindexed
    refine ⟨hcomplete, ?_, fun found hmem ↦ ?_⟩
    · have hpos := List.length_pos_iff.2 hindexed.localtimes
      rw [hlocaltimes, hlength] at hpos
      omega
    · rw [← length_abbreviation hcomplete]
      exact (hindexed.arrbIdx found hmem).2
  · intro hwell
    have htypecnt := hwell.typecnt
    refine ⟨?_, fun transition hmem ↦ ?_, fun found hmem ↦ ?_⟩
    · rw [hlocaltimes]
      apply List.ne_nil_of_length_pos
      omega
    · obtain ⟨pair, hpair, rfl⟩ := List.mem_map.1 hmem
      have hidx := hcomplete.localtimeIdx pair.2
        (map_snd_pairsOf bytes ▸ List.mem_map_of_mem hpair)
      have hvalue : (transitionOf (localtimesIn bytes) pair).localtimeIdx = pair.2 := rfl
      rw [hvalue, hlocaltimes, hlength]
      omega
    · rw [length_abbreviation hcomplete]
      exact ⟨arrbIdx_nonneg hmem, hwell.arrbIdx found hmem⟩

/-- Data without abbreviations are not usable. -/
theorem not_indexed_of_abbreviation {data : ZoneData} (hempty : data.abbreviation = []) :
    ¬ data.Indexed := by
  intro hindexed
  obtain ⟨found, others, hlocaltimes⟩ := List.exists_cons_of_ne_nil hindexed.localtimes
  have hidx := hindexed.arrbIdx found (hlocaltimes ▸ List.mem_cons_self)
  rw [hempty] at hidx
  exact absurd (hidx.1.trans_lt hidx.2) (lt_irrefl _)

/-- Whatever happens, the file counts as read. -/
theorem read_eq_true {zonefile : Option (List Byte)} {read : Bool} {data : ZoneData}
    (hread : readTimeZoneFile zonefile = some (read, data)) : read = true := by
  unfold readTimeZoneFile at hread
  split at hread
  · exact (Prod.mk.inj (Option.some.inj hread)).1.symm
  · split at hread
    · exact (Prod.mk.inj (Option.some.inj hread)).1.symm
    · cases hread
    · exact (Prod.mk.inj (Option.some.inj hread)).1.symm

/-- The data after the constructor of `TimeZone` are usable if the file is well formed. -/
theorem exists_indexed_iff (zonefile : Option (List Byte)) :
    (∃ read data, readTimeZoneFile zonefile = some (read, data) ∧ data.Indexed) ↔
      ∃ bytes, zonefile = some bytes ∧ WellFormed bytes := by
  cases zonefile with
  | none =>
    constructor
    · rintro ⟨read, data, hread, hindexed⟩
      obtain ⟨-, rfl⟩ := Prod.mk.inj (Option.some.inj hread)
      exact absurd hindexed (not_indexed_of_abbreviation rfl)
    · rintro ⟨bytes, hnone, -⟩
      cases hnone
  | some bytes =>
    unfold readTimeZoneFile
    constructor
    · rintro ⟨read, data, hread, hindexed⟩
      refine ⟨bytes, rfl, ?_⟩
      cases hfile : readFile ⟨bytes, .new⟩ with
      | ok done s =>
        simp only [hfile] at hread
        obtain ⟨-, rfl⟩ := Prod.mk.inj (Option.some.inj hread)
        obtain ⟨hcomplete, rfl⟩ := readFile_eq_ok.1 hfile
        exact (indexed_dataOf_iff hcomplete).1 hindexed
      | error e s =>
        have hempty := abbreviation_of_error rfl hfile
        simp only [hfile] at hread
        cases e with
        | undefinedBehaviour => cases hread
        | outOfRange | invalidArgument | logicError =>
          obtain ⟨-, rfl⟩ := Prod.mk.inj (Option.some.inj hread)
          exact absurd hindexed (not_indexed_of_abbreviation hempty)
    · rintro ⟨_, ⟨⟩, hwell⟩
      refine ⟨true, dataOf bytes, ?_, (indexed_dataOf_iff hwell.toComplete).2 hwell⟩
      simp only [readFile_eq_ok.2 ⟨hwell.toComplete, rfl⟩]

end ZoneReader

namespace TimeZone

/-- What the users of a zone rely on: it is not valid, or its data are usable and every conversion
stays within them. -/
def Robust (zonefile : Option (List Byte)) : Prop :=
  ∃ zone, ofFile zonefile = some zone ∧ (zone.valid = false ∨
    (∃ data, zone.data = some data ∧ data.Indexed) ∧
      (∀ gmtime seconds, ∃ tm, toLocalTime gmtime zone seconds = some tm) ∧
      ∀ gmtime timegm localTm, ∃ seconds, fromLocalTime gmtime timegm zone localTm = some seconds)

/-- A zone is always valid, and its data are usable exactly if the file is there and well formed. -/
theorem robust_iff (zonefile : Option (List Byte)) :
    Robust zonefile ↔ ∃ bytes, zonefile = some bytes ∧ ZoneReader.WellFormed bytes := by
  rw [← ZoneReader.exists_indexed_iff]
  constructor
  · rintro ⟨zone, hzone, husable⟩
    obtain ⟨⟨read, data⟩, hread, rfl⟩ := Option.map_eq_some_iff.1 hzone
    obtain rfl := ZoneReader.read_eq_true hread
    rcases husable with hinvalid | ⟨⟨data', hdata, hindexed⟩, -, -⟩
    · cases hinvalid
    · obtain rfl := Option.some.inj hdata
      exact ⟨true, data, hread, hindexed⟩
  · rintro ⟨read, data, hread, hindexed⟩
    obtain rfl := ZoneReader.read_eq_true hread
    exact ⟨⟨some data⟩, Option.map_eq_some_iff.2 ⟨_, hread, rfl⟩, .inr ⟨⟨data, rfl, hindexed⟩,
      fun gmtime seconds ↦ exists_toLocalTime gmtime hindexed seconds,
      fun gmtime timegm localTm ↦ exists_fromLocalTime gmtime timegm hindexed localTm⟩⟩

/-- The file of UTC is well formed. -/
example : ZoneReader.WellFormed (text "TZif" ++ List.replicate 32 0 ++ [0, 0, 0, 1, 0, 0, 0, 4] ++
    List.replicate 6 0 ++ text "UTC" ++ [0]) where
  magic := by decide +kernel
  timecnt := by decide +kernel
  charcnt := by decide +kernel
  length := by decide +kernel
  localtimeIdx := by decide +kernel
  typecnt := by decide +kernel
  arrbIdx := by decide +kernel

/-- Without a file there is a valid zone with nothing in it. -/
theorem robust_missing_file_false : ¬ ∀ zonefile, Robust zonefile := by
  intro hall
  obtain ⟨zone, hzone, husable⟩ := hall none
  obtain rfl := Option.some.inj hzone
  rcases husable with hinvalid | ⟨⟨data, hdata, hindexed⟩, -, -⟩
  · cases hinvalid
  · obtain rfl := Option.some.inj hdata
    exact hindexed.localtimes rfl

end TimeZone

end LWebServer
