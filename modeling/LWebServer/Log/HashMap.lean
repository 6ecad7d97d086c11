import LWebServer.Library.Emplace
import Mathlib.Data.List.Basic
import Mathlib.Logic.Function.Basic

/-!
# The bucketed map of the log

`Threadsafe_unordered_map` keeps its entries in lists, one for each value of the hash modulo their
number. Each call holds the mutex of its list, so calls are taken one after the other.
-/

namespace LWebServer

variable {Key Value : Type}

/-- `buket_type` -/
structure BuketType (Key Value : Type) where
  data : List (Key × Value)

namespace BuketType

variable [DecidableEq Key]

/-- `find_entry`: the place of the first entry of the key, or none at the end. -/
def findEntry (key : Key) (buket : BuketType Key Value) : Option ℕ :=
  buket.data.findIdx? fun para ↦ para.1 = key

/-- `buket_type::add_or_update` -/
def addOrUpdate (key : Key) (value : Value) (buket : BuketType Key Value) : BuketType Key Value :=
  match buket.findEntry key with
  | none => ⟨buket.data ++ [(key, value)]⟩
  | some valueIterator => ⟨buket.data.modify valueIterator fun entry ↦ (entry.1, value)⟩

/-- `buket_type::remove` -/
def remove (key : Key) (buket : BuketType Key Value) : BuketType Key Value :=
  match buket.findEntry key with
  | none => buket
  | some valueIterator => ⟨buket.data.eraseIdx valueIterator⟩

end BuketType

/-- `ws::detail::Threadsafe_unordered_map`, with at least one list. -/
structure ThreadsafeUnorderedMap (Key Value : Type) where
  bukets : List (BuketType Key Value)
  hasher : Key → ℕ
  hbukets : 0 < bukets.length

namespace ThreadsafeUnorderedMap

/-- The constructor. -/
def new (numBukets : ℕ) (hnum : 0 < numBukets) (hasher : Key → ℕ) :
    ThreadsafeUnorderedMap Key Value where
  bukets := List.replicate numBukets ⟨[]⟩
  hasher := hasher
  hbukets := by rwa [List.length_replicate]

/-- The index in `get_buket`. -/
def index (key : Key) (m : ThreadsafeUnorderedMap Key Value) : ℕ :=
  m.hasher key % m.bukets.length

theorem index_lt (key : Key) (m : ThreadsafeUnorderedMap Key Value) :
    m.index key < m.bukets.length := Nat.mod_lt _ m.hbukets

/-- `get_buket` -/
def getBuket (key : Key) (m : ThreadsafeUnorderedMap Key Value) : BuketType Key Value :=
  m.bukets.get ⟨m.index key, m.index_lt key⟩

/-- A call on the list that `get_buket` finds. -/
def onBuket (key : Key) (f : BuketType Key Value → BuketType Key Value)
    (m : ThreadsafeUnorderedMap Key Value) : ThreadsafeUnorderedMap Key Value where
  bukets := m.bukets.modify (m.index key) f
  hasher := m.hasher
  hbukets := by rw [List.length_modify]; exact m.hbukets

variable [DecidableEq Key]

/-- `add_or_update` -/
def addOrUpdate (key : Key) (value : Value) (m : ThreadsafeUnorderedMap Key Value) :
    ThreadsafeUnorderedMap Key Value := m.onBuket key (BuketType.addOrUpdate key value)

/-- `remove` -/
def remove (key : Key) (m : ThreadsafeUnorderedMap Key Value) : ThreadsafeUnorderedMap Key Value :=
  m.onBuket key (BuketType.remove key)

/-- `std::map::insert`, which keeps an entry that the key has already. -/
def insert (standardMap : Key → Option Value) (entry : Key × Value) : Key → Option Value :=
  if standardMap entry.1 = none then Function.update standardMap entry.1 (some entry.2)
  else standardMap

/-- `get_standard_map` -/
def getStandardMap (m : ThreadsafeUnorderedMap Key Value) : Key → Option Value :=
  (m.bukets.flatMap BuketType.data).foldl insert fun _ ↦ none

/-- A call that changes the map. -/
inductive Update (Key Value : Type) where
  | addOrUpdate (key : Key) (value : Value)
  | remove (key : Key)

/-- What the call does. -/
def apply (m : ThreadsafeUnorderedMap Key Value) :
    Update Key Value → ThreadsafeUnorderedMap Key Value
  | .addOrUpdate key value => m.addOrUpdate key value
  | .remove key => m.remove key

/-- What it means for a finite map. -/
def Update.meaning (standardMap : Key → Option Value) : Update Key Value → Key → Option Value
  | .addOrUpdate key value => Function.update standardMap key (some value)
  | .remove key => Function.update standardMap key none

end ThreadsafeUnorderedMap

/-! ## One list -/

/-- The value of a key in a list of entries. -/
abbrev valueIn [DecidableEq Key] (entries : List (Key × Value)) (key : Key) : Option Value :=
  Emplace.lookup id entries key

namespace BuketType

variable [DecidableEq Key] {key : Key} {value : Value} {buket : BuketType Key Value}

theorem valueIn_cons (key other : Key) (value : Value) (entries : List (Key × Value)) :
    valueIn ((key, value) :: entries) other =
      if key = other then some value else valueIn entries other := by
  unfold valueIn Emplace.lookup
  rw [List.find?_cons]
  split_ifs with heq
  · rw [decide_eq_true (show id key = other from heq)]
    rfl
  · rw [decide_eq_false (show ¬ id key = other from heq)]

/-- Either no entry has the key, or the first one that has it is found. -/
theorem findEntry_cases (key : Key) (buket : BuketType Key Value) :
    (buket.findEntry key = none ∧ ∀ entry ∈ buket.data, entry.1 ≠ key) ∨
    ∃ front old back, buket.data = front ++ (key, old) :: back ∧
      (∀ entry ∈ front, entry.1 ≠ key) ∧ buket.findEntry key = some front.length := by
  cases hfound : buket.findEntry key with
  | none =>
    refine .inl ⟨rfl, ?_⟩
    intro entry hmem
    simpa using List.findIdx?_eq_none_iff.1 hfound entry hmem
  | some i =>
    right
    obtain ⟨hlt, hkey, hbefore⟩ := List.findIdx?_eq_some_iff_getElem.1 hfound
    have hkey' : buket.data[i].1 = key := by simpa using hkey
    refine ⟨buket.data.take i, buket.data[i].2, buket.data.drop (i + 1), ?_, ?_, ?_⟩
    · rw [← hkey', ← List.drop_eq_getElem_cons hlt, List.take_append_drop]
    · intro entry hmem
      obtain ⟨j, hj, rfl⟩ := List.mem_take_iff_getElem.1 hmem
      simpa using hbefore j (by omega)
    · rw [List.length_take_of_le (Nat.le_of_lt hlt)]

omit [DecidableEq Key] in
theorem modify_middle (f : Key × Value → Key × Value) (front back : List (Key × Value))
    (entry : Key × Value) :
    (front ++ entry :: back).modify front.length f = front ++ f entry :: back := by
  induction front with
  | nil => rfl
  | cons first front ih => exact congrArg (first :: ·) ih

/-- The entries before the one of a key and those behind it; all and none if there is not one. -/
structure Around (key : Key) (entries front back : List (Key × Value)) : Prop where
  others : ∀ entry ∈ front, entry.1 ≠ key
  split : (entries = front ∧ back = []) ∨ ∃ old, entries = front ++ (key, old) :: back

/-- `add_or_update` puts an entry between those before and those behind, and `remove` leaves these
alone. -/
theorem exists_around (key : Key) (buket : BuketType Key Value) :
    ∃ front back, Around key buket.data front back ∧
      (∀ value, (buket.addOrUpdate key value).data = front ++ (key, value) :: back) ∧
      (buket.remove key).data = front ++ back := by
  rcases findEntry_cases key buket with ⟨hfound, hnone⟩ | ⟨front, old, back, hdata, hfront, hfound⟩
  · refine ⟨buket.data, [], ⟨hnone, .inl ⟨rfl, rfl⟩⟩, ?_, ?_⟩
    · intro value
      rw [addOrUpdate, hfound]
    · rw [remove, hfound, List.append_nil]
  · refine ⟨front, back, ⟨hfront, .inr ⟨old, hdata⟩⟩, ?_, ?_⟩
    · intro value
      rw [addOrUpdate, hfound]
      change buket.data.modify front.length _ = _
      rw [hdata, modify_middle]
    · rw [remove, hfound]
      change buket.data.eraseIdx front.length = _
      rw [hdata, List.eraseIdx_append_of_length_le (Nat.le_refl _), Nat.sub_self,
        List.eraseIdx_cons_zero]

variable {entries front back : List (Key × Value)} {other : Key}

theorem valueIn_middle (hfront : ∀ entry ∈ front, entry.1 ≠ key) (value : Value) :
    valueIn (front ++ (key, value) :: back) other =
      if key = other then some value else valueIn (front ++ back) other := by
  rw [valueIn, valueIn, Emplace.lookup_append, Emplace.lookup_append]
  by_cases heq : key = other
  · have hnone : Emplace.lookup id front other = none := by
      rw [← heq]
      exact Emplace.lookup_eq_none_iff.2 hfront
    rw [hnone, if_pos heq, Option.none_or]
    exact (valueIn_cons key other value back).trans (if_pos heq)
  · rw [if_neg heq]
    congr 1
    exact (valueIn_cons key other value back).trans (if_neg heq)

/-- The other keys are all before the entry or behind it. -/
theorem Around.valueIn_eq (haround : Around key entries front back) (hne : key ≠ other) :
    valueIn entries other = valueIn (front ++ back) other := by
  rcases haround.split with ⟨rfl, rfl⟩ | ⟨old, rfl⟩
  · rw [List.append_nil]
  · rw [valueIn_middle haround.others, if_neg hne]

theorem valueIn_addOrUpdate (key : Key) (value : Value) (buket : BuketType Key Value) :
    valueIn (buket.addOrUpdate key value).data =
      Function.update (valueIn buket.data) key (some value) := by
  obtain ⟨front, back, haround, hadd, -⟩ := exists_around key buket
  funext other
  rw [hadd, valueIn_middle haround.others, Function.update_apply]
  by_cases heq : key = other
  · rw [if_pos heq, if_pos heq.symm]
  · rw [if_neg heq, if_neg (Ne.symm heq), haround.valueIn_eq heq]

omit [DecidableEq Key] in
/-- With one entry a key, none is left behind the entry that is removed. -/
theorem Around.notMem_keys (haround : Around key entries front back)
    (hdistinct : (entries.map Prod.fst).Nodup) : key ∉ (front ++ back).map Prod.fst := by
  have hfront : key ∉ front.map Prod.fst := by
    intro hmem
    obtain ⟨entry, hentry, hkey⟩ := List.mem_map.1 hmem
    exact haround.others entry hentry hkey
  rcases haround.split with ⟨rfl, rfl⟩ | ⟨old, rfl⟩
  · rwa [List.append_nil]
  · rw [List.map_append, List.map_cons] at hdistinct
    rw [List.map_append, List.mem_append]
    rintro (hmem | hmem)
    · exact hfront hmem
    · exact (List.nodup_cons.1 (List.nodup_append.1 hdistinct).2.1).1 hmem

theorem valueIn_remove (key : Key) {buket : BuketType Key Value}
    (hdistinct : (buket.data.map Prod.fst).Nodup) :
    valueIn (buket.remove key).data = Function.update (valueIn buket.data) key none := by
  obtain ⟨front, back, haround, -, hremove⟩ := exists_around key buket
  funext other
  rw [hremove, Function.update_apply]
  by_cases heq : other = key
  · rw [if_pos heq, heq]
    apply Emplace.lookup_eq_none_iff.2
    intro entry hmem hkey
    exact haround.notMem_keys hdistinct (List.mem_map.2 ⟨entry, hmem, hkey⟩)
  · rw [if_neg heq, haround.valueIn_eq (Ne.symm heq)]

theorem nodup_remove (key : Key) {buket : BuketType Key Value}
    (hdistinct : (buket.data.map Prod.fst).Nodup) :
    ((buket.remove key).data.map Prod.fst).Nodup := by
  obtain ⟨front, back, haround, -, hremove⟩ := exists_around key buket
  rw [hremove]
  rcases haround.split with ⟨hdata, rfl⟩ | ⟨old, hdata⟩
  · rwa [List.append_nil, ← hdata]
  · rw [hdata] at hdistinct
    exact List.Nodup.sublist (((List.sublist_cons_self _ _).append_left _).map _) hdistinct

theorem nodup_addOrUpdate (key : Key) (value : Value) {buket : BuketType Key Value}
    (hdistinct : (buket.data.map Prod.fst).Nodup) :
    ((buket.addOrUpdate key value).data.map Prod.fst).Nodup := by
  obtain ⟨front, back, haround, hadd, hremove⟩ := exists_around key buket
  have hothers := haround.notMem_keys hdistinct
  have hrest := nodup_remove key hdistinct
  rw [hremove, List.map_append] at hrest
  rw [List.map_append] at hothers
  rw [hadd, List.map_append, List.map_cons]
  exact List.nodup_middle.2 (List.nodup_cons.2 ⟨hothers, hrest⟩)

theorem mem_of_mem_addOrUpdate {buket : BuketType Key Value} {entry : Key × Value}
    (hmem : entry ∈ (buket.addOrUpdate key value).data) : entry.1 = key ∨ entry ∈ buket.data := by
  obtain ⟨front, back, haround, hadd, -⟩ := exists_around key buket
  rw [hadd] at hmem
  rcases haround.split with ⟨hdata, rfl⟩ | ⟨old, hdata⟩ <;> rw [hdata]
  · rcases List.mem_append.1 hmem with hmem | hmem
    · exact .inr hmem
    · rw [List.mem_singleton.1 hmem]
      exact .inl rfl
  · rcases List.mem_append.1 hmem with hmem | hmem
    · exact .inr (List.mem_append_left _ hmem)
    · rcases List.mem_cons.1 hmem with rfl | hmem
      · exact .inl rfl
      · exact .inr (List.mem_append_right _ (List.mem_cons_of_mem _ hmem))

theorem mem_of_mem_remove {buket : BuketType Key Value} {entry : Key × Value}
    (hmem : entry ∈ (buket.remove key).data) : entry ∈ buket.data := by
  obtain ⟨front, back, haround, -, hremove⟩ := exists_around key buket
  rw [hremove] at hmem
  rcases haround.split with ⟨hdata, rfl⟩ | ⟨old, hdata⟩ <;> rw [hdata]
  · rwa [List.append_nil] at hmem
  · exact ((List.sublist_cons_self _ _).append_left _).mem hmem

end BuketType

/-! ## The map -/

namespace ThreadsafeUnorderedMap

variable {m : ThreadsafeUnorderedMap Key Value}

/-- Every entry is in the list of its hash, where it is the only one of its key. -/
structure Placed (m : ThreadsafeUnorderedMap Key Value) : Prop where
  index : ∀ (i : ℕ) (buket : BuketType Key Value), m.bukets[i]? = some buket →
    ∀ entry ∈ buket.data, m.index entry.1 = i
  distinct : ∀ buket ∈ m.bukets, (buket.data.map Prod.fst).Nodup

theorem placed_new {numBukets : ℕ} (hnum : 0 < numBukets) (hasher : Key → ℕ) :
    (new numBukets hnum hasher : ThreadsafeUnorderedMap Key Value).Placed where
  index := by
    intro i buket hbuket entry hmem
    have hempty := List.eq_of_mem_replicate (List.mem_of_getElem? hbuket)
    rw [hempty] at hmem
    cases hmem
  distinct := by
    intro buket hmem
    rw [List.eq_of_mem_replicate hmem]
    exact List.nodup_nil

@[simp]
theorem index_onBuket (key other : Key) (f : BuketType Key Value → BuketType Key Value) :
    (m.onBuket key f).index other = m.index other := by
  unfold index onBuket
  rw [List.length_modify]

theorem getElem?_index (key : Key) (m : ThreadsafeUnorderedMap Key Value) :
    m.bukets[m.index key]? = some (m.getBuket key) :=
  List.getElem?_eq_getElem (m.index_lt key)

theorem getBuket_mem (key : Key) (m : ThreadsafeUnorderedMap Key Value) :
    m.getBuket key ∈ m.bukets := List.mem_of_getElem? (getElem?_index key m)

theorem getBuket_onBuket (key other : Key) (f : BuketType Key Value → BuketType Key Value) :
    (m.onBuket key f).getBuket other =
      if m.index key = m.index other then f (m.getBuket other) else m.getBuket other := by
  have hfound := getElem?_index other (m.onBuket key f)
  rw [index_onBuket] at hfound
  change (m.bukets.modify (m.index key) f)[m.index other]? = _ at hfound
  rw [List.getElem?_modify, getElem?_index] at hfound
  split_ifs at hfound ⊢
  · exact (Option.some.inj hfound).symm
  · exact (Option.some.inj hfound).symm

/-- A call that leaves a list in order leaves all of them in order. -/
theorem Placed.onBuket (hplaced : m.Placed) {key : Key}
    {f : BuketType Key Value → BuketType Key Value}
    (hmem : ∀ buket, ∀ entry ∈ (f buket).data, entry.1 = key ∨ entry ∈ buket.data)
    (hdistinct : ∀ buket, (buket.data.map Prod.fst).Nodup → ((f buket).data.map Prod.fst).Nodup) :
    (m.onBuket key f).Placed where
  index := by
    intro i buket hbuket entry hentry
    rw [index_onBuket]
    change (m.bukets.modify (m.index key) f)[i]? = some buket at hbuket
    rw [List.getElem?_modify, Option.map_eq_map, Option.map_eq_some_iff] at hbuket
    obtain ⟨before, hbefore, rfl⟩ := hbuket
    split_ifs at hentry with hindex
    · rcases hmem before entry hentry with hkey | hold
      · rw [hkey, hindex]
      · exact hplaced.index i before hbefore entry hold
    · exact hplaced.index i before hbefore entry hentry
  distinct := by
    intro buket hbuket
    obtain ⟨i, hi⟩ := List.getElem?_of_mem hbuket
    change (m.bukets.modify (m.index key) f)[i]? = some buket at hi
    rw [List.getElem?_modify, Option.map_eq_map, Option.map_eq_some_iff] at hi
    obtain ⟨before, hbefore, rfl⟩ := hi
    have hnodup := hplaced.distinct before (List.mem_of_getElem? hbefore)
    split_ifs
    · exact hdistinct before hnodup
    · exact hnodup

variable [DecidableEq Key]

theorem Placed.apply (hplaced : m.Placed) (update : Update Key Value) :
    (m.apply update).Placed := by
  cases update with
  | addOrUpdate key value =>
    exact hplaced.onBuket (fun _ _ ↦ BuketType.mem_of_mem_addOrUpdate)
      (fun _ ↦ BuketType.nodup_addOrUpdate key value)
  | remove key =>
    exact hplaced.onBuket (fun _ _ hmem ↦ .inr (BuketType.mem_of_mem_remove hmem))
      (fun _ ↦ BuketType.nodup_remove key)

/-- The finite map that the lists stand for. -/
def content (m : ThreadsafeUnorderedMap Key Value) (key : Key) : Option Value :=
  valueIn (m.getBuket key).data key

/-- A call does to the finite map what it means. -/
theorem content_apply (hplaced : m.Placed) (update : Update Key Value) :
    (m.apply update).content = update.meaning m.content := by
  funext other
  cases update with
  | addOrUpdate key value =>
    change valueIn ((m.onBuket key (BuketType.addOrUpdate key value)).getBuket other).data other =
      Function.update m.content key (some value) other
    rw [getBuket_onBuket, Function.update_apply]
    by_cases hkey : other = key
    · rw [hkey, if_pos rfl, if_pos rfl, BuketType.valueIn_addOrUpdate, Function.update_self]
    · rw [if_neg hkey]
      split_ifs
      · rw [BuketType.valueIn_addOrUpdate, Function.update_of_ne hkey]
        rfl
      · rfl
  | remove key =>
    change valueIn ((m.onBuket key (BuketType.remove key)).getBuket other).data other =
      Function.update m.content key none other
    have hdistinct := hplaced.distinct _ (m.getBuket_mem other)
    rw [getBuket_onBuket, Function.update_apply]
    by_cases hkey : other = key
    · rw [hkey] at hdistinct
      rw [hkey, if_pos rfl, if_pos rfl, BuketType.valueIn_remove key hdistinct,
        Function.update_self]
    · rw [if_neg hkey]
      split_ifs
      · rw [BuketType.valueIn_remove key hdistinct, Function.update_of_ne hkey]
        rfl
      · rfl

omit [DecidableEq Key] in
/-- No key has two entries. -/
theorem Placed.nodup (hplaced : m.Placed) :
    ((m.bukets.flatMap BuketType.data).map Prod.fst).Nodup := by
  rw [List.map_flatMap, List.nodup_flatMap]
  constructor
  · exact hplaced.distinct
  · rw [List.pairwise_iff_getElem]
    intro i j hi hj hlt key hkey hkey'
    obtain ⟨entry, hentry, rfl⟩ := List.mem_map.1 hkey
    obtain ⟨entry', hentry', hsame⟩ := List.mem_map.1 hkey'
    have hindex := hplaced.index i _ (List.getElem?_eq_getElem hi) entry hentry
    have hindex' := hplaced.index j _ (List.getElem?_eq_getElem hj) entry' hentry'
    rw [hsame] at hindex'
    omega

theorem foldl_insert (entries : List (Key × Value)) (standardMap : Key → Option Value) (key : Key) :
    entries.foldl insert standardMap key = (standardMap key).or (valueIn entries key) := by
  induction entries generalizing standardMap with
  | nil => exact Option.or_none.symm
  | cons entry entries ih =>
    rw [List.foldl_cons, ih, BuketType.valueIn_cons, insert]
    by_cases hkey : entry.1 = key
    · rw [if_pos hkey, hkey]
      split_ifs with hnone
      · rw [Function.update_self, hnone, Option.some_or, Option.none_or]
      · obtain ⟨value, hsome⟩ := Option.ne_none_iff_exists'.1 hnone
        rw [hsome, Option.some_or, Option.some_or]
    · rw [if_neg hkey]
      split_ifs
      · rw [Function.update_of_ne (Ne.symm hkey)]
      · rfl

/-- The snapshot is the finite map. -/
theorem getStandardMap_eq (hplaced : m.Placed) : m.getStandardMap = m.content := by
  funext key
  unfold getStandardMap
  rw [foldl_insert, Option.none_or]
  by_cases hstored : ∃ entry ∈ (m.getBuket key).data, entry.1 = key
  · obtain ⟨entry, hmem, rfl⟩ := hstored
    have hdistinct := hplaced.distinct _ (m.getBuket_mem entry.1)
    have hflat : entry ∈ m.bukets.flatMap BuketType.data :=
      List.mem_flatMap.2 ⟨_, m.getBuket_mem entry.1, hmem⟩
    calc valueIn (m.bukets.flatMap BuketType.data) entry.1
      _ = some entry.2 := Emplace.lookup_of_mem hflat hplaced.nodup
      _ = m.content entry.1 := (Emplace.lookup_of_mem hmem hdistinct).symm
  · have hnone : m.content key = none := by
      apply Emplace.lookup_eq_none_iff.2
      intro entry hmem hkey
      exact hstored ⟨entry, hmem, hkey⟩
    rw [hnone]
    apply Emplace.lookup_eq_none_iff.2
    intro entry hflat hkey
    obtain ⟨buket, hbuket, hmem⟩ := List.mem_flatMap.1 hflat
    obtain ⟨i, hi⟩ := List.getElem?_of_mem hbuket
    have hindex := hplaced.index i buket hi entry hmem
    rw [show entry.1 = key from hkey] at hindex
    rw [← hindex, getElem?_index] at hi
    rw [← Option.some.inj hi] at hmem
    exact hstored ⟨entry, hmem, hkey⟩

/-! ## Runs -/

/-- The calls, one after the other. -/
def run (m : ThreadsafeUnorderedMap Key Value) (updates : List (Update Key Value)) :
    ThreadsafeUnorderedMap Key Value := updates.foldl apply m

theorem Placed.run (hplaced : m.Placed) (updates : List (Update Key Value)) :
    (m.run updates).Placed := by
  induction updates generalizing m with
  | nil => exact hplaced
  | cons update updates ih => exact ih (hplaced.apply update)

theorem content_run (hplaced : m.Placed) (updates : List (Update Key Value)) :
    (m.run updates).content = updates.foldl Update.meaning m.content := by
  induction updates generalizing m with
  | nil => rfl
  | cons update updates ih =>
    calc ((m.apply update).run updates).content
      _ = updates.foldl Update.meaning (m.apply update).content := ih (hplaced.apply update)
      _ = updates.foldl Update.meaning (update.meaning m.content) := by
        rw [content_apply hplaced update]

theorem index_run (updates : List (Update Key Value)) (key : Key) :
    (m.run updates).index key = m.index key := by
  induction updates generalizing m with
  | nil => rfl
  | cons update updates ih =>
    have hstep : (m.apply update).index key = m.index key := by
      cases update with
      | addOrUpdate other value => exact index_onBuket other key _
      | remove other => exact index_onBuket other key _
    exact ih.trans hstep

theorem content_new {numBukets : ℕ} (hnum : 0 < numBukets) (hasher : Key → ℕ) :
    (new numBukets hnum hasher : ThreadsafeUnorderedMap Key Value).content = fun _ ↦ none := by
  funext key
  have hempty : (new numBukets hnum hasher).getBuket key = (⟨[]⟩ : BuketType Key Value) :=
    List.eq_of_mem_replicate (getBuket_mem key (new numBukets hnum hasher))
  unfold content
  rw [hempty]
  rfl

/-- The snapshot is what the calls mean for an empty finite map; every entry is in the list of its
hash, and no key has two. -/
theorem getStandardMap_run (numBukets : ℕ) (hnum : 0 < numBukets) (hasher : Key → ℕ)
    (updates : List (Update Key Value)) :
    ((new numBukets hnum hasher).run updates).getStandardMap =
      updates.foldl Update.meaning (fun _ ↦ none) ∧
    (∀ (i : ℕ) (buket : BuketType Key Value),
      ((new numBukets hnum hasher).run updates).bukets[i]? = some buket →
        ∀ entry ∈ buket.data, hasher entry.1 % numBukets = i) ∧
    ((((new numBukets hnum hasher).run updates).bukets.flatMap BuketType.data).map
      Prod.fst).Nodup := by
  have hnew : (new numBukets hnum hasher : ThreadsafeUnorderedMap Key Value).Placed :=
    placed_new hnum hasher
  have hplaced := hnew.run updates
  refine ⟨?_, ?_, hplaced.nodup⟩
  · rw [getStandardMap_eq hplaced, content_run hnew, content_new]
  · intro i buket hbuket entry hmem
    have hindex := hplaced.index i buket hbuket entry hmem
    rw [index_run] at hindex
    unfold index new at hindex
    rwa [List.length_replicate] at hindex

/-- Three keys in two lists, of which one is written again and one is removed. -/
theorem getStandardMap_run_two :
    ((new 2 (by decide) id).run
      [.addOrUpdate 1 'a', .addOrUpdate 3 'b', .addOrUpdate 4 'c', .addOrUpdate 1 'd',
        .remove 3]).getStandardMap 1 = some 'd' ∧
    ((new 2 (by decide) id).run
      [.addOrUpdate 1 'a', .addOrUpdate 3 'b', .addOrUpdate 4 'c', .addOrUpdate 1 'd',
        .remove 3]).getStandardMap 3 = none := by
  rw [(getStandardMap_run 2 (by decide) id _).1]
  exact ⟨rfl, rfl⟩

end ThreadsafeUnorderedMap

end LWebServer
