import LWebServer.Http.Provider
import LWebServer.Library.Span
import Mathlib.Data.List.DropRight

/-!
# The media type of a URI

`AutoAdapt` goes from the end of the URI to the last dot in it, wherever that stands, and looks up
what it has kept of the text from there on. The type that the file name has is found in this way
unless a dot stands in the query, and a missing extension only where no dot stands anywhere.
-/

namespace LWebServer.Provider

open Memory

/-! ## The type of a file name -/

/-- The type of an extension in the table. -/
def typeOf (extension : List Byte) : Option (List Byte) :=
  (FastFindMIMEMatcher.contentType.find? fun entry ↦ text entry.1 = extension).map
    fun entry ↦ text entry.2

/-- What a URI names, without the query. -/
def uriPath (uri : List Byte) : List Byte := uri.takeWhile (· ≠ ascii '?')

def uriQuery (uri : List Byte) : List Byte := uri.dropWhile (· ≠ ascii '?')

/-- The last segment. -/
def fileName (uri : List Byte) : List Byte := (uriPath uri).rtakeWhile (· ≠ ascii '/')

/-- The type of the file name of a URI. -/
def fileType (uri : List Byte) : Option (List Byte) :=
  (Span.lastFrom (ascii '.') (fileName uri)).bind typeOf

def mediaType (uri : List Byte) : List Byte := (fileType uri).getD defaultMIME

theorem contentType_encoded : ∀ entry ∈ FastFindMIMEMatcher.contentType,
    ((encoded entry.1).all fun b ↦ decide (b < 128) && isFilename b) = true ∧
      (((encoded entry.2).take 10).all fun b ↦ decide (b < 128)) = true ∧
      (encoded entry.2).take 10 ≠ encoded "nullptr" ∧
      (encoded entry.2).take 10 ≠ encoded "text/html\n" := by
  decide +kernel

theorem encoded_extension {entry : String × String}
    (hmem : entry ∈ FastFindMIMEMatcher.contentType) :
    ∀ b ∈ encoded entry.1, b < 128 ∧ isFilename b = true := by
  have hall := (contentType_encoded entry hmem).1
  simpa using hall

theorem text_extension {entry : String × String}
    (hmem : entry ∈ FastFindMIMEMatcher.contentType) : text entry.1 = encoded entry.1 :=
  text_of_lt fun b hb ↦ (encoded_extension hmem b hb).1

/-- No extension in the table has a character that no file name has, and no type is one of the two
special strings. -/
theorem contentType_regular {entry : String × String}
    (hmem : entry ∈ FastFindMIMEMatcher.contentType) :
    (∀ ch ∈ text entry.1, isFilename ch = true) ∧ text entry.2 ≠ text "nullptr" ∧
      text entry.2 ≠ defaultMIME := by
  obtain ⟨-, hsmall, hnull, hdefault⟩ := contentType_encoded entry hmem
  rw [← take_text_of_lt (forall_mem_of_all hsmall)] at hnull hdefault
  refine ⟨fun ch hch ↦ ?_, fun heq ↦ ?_, fun heq ↦ ?_⟩
  · rw [text_extension hmem] at hch
    exact (encoded_extension hmem ch hch).2
  · rw [heq] at hnull
    exact hnull (by decide)
  · rw [heq] at hdefault
    exact hdefault (by decide)

theorem typeOf_eq_none {extension : List Byte}
    (hmiss : ∀ entry ∈ FastFindMIMEMatcher.contentType, encoded entry.1 ≠ extension) :
    typeOf extension = none := by
  rw [typeOf, Option.map_eq_none_iff, List.find?_eq_none]
  intro entry hmem
  rw [text_extension hmem]
  simpa using hmiss entry hmem

theorem regular_of_typeOf {extension type : List Byte} (htype : typeOf extension = some type) :
    (∀ ch ∈ extension, isFilename ch = true) ∧ type ≠ text "nullptr" ∧ type ≠ defaultMIME := by
  obtain ⟨entry, hfind, rfl⟩ := Option.map_eq_some_iff.mp htype
  have hkey : text entry.1 = extension := by simpa using List.find?_some hfind
  have hregular := contentType_regular (List.mem_of_find?_eq_some hfind)
  rwa [hkey] at hregular

theorem mime_eq_ok {extension type : List Byte} :
    mime extension = .ok type ↔ typeOf extension = some type := by
  have hget : FastFindMIMEMatcher.get extension = (typeOf extension).getD (text "nullptr") := by
    unfold FastFindMIMEMatcher.get typeOf
    cases FastFindMIMEMatcher.contentType.find? fun entry ↦ text entry.1 = extension <;> rfl
  unfold mime
  rw [hget]
  cases htype : typeOf extension with
  | none => simp
  | some type' => simp [(regular_of_typeOf htype).2.1]

/-! ## The scan -/

/-- What `AutoAdapt` looks up for the text behind the first byte of the URI. -/
def scanned (s : List Byte) : Except Fail (List Byte) :=
  match Span.lastFrom (ascii '.') s with
  | none => .ok defaultMIME
  | some suffix => mime (suffix.takeWhile isFilename)

/-- The loop has seen `rest`, which has no dot, and `stop` is where its first character that no
file name has stands. -/
theorem autoAdaptLoop_eq (mem : ℕ → Byte) (temp start : ℕ) {rest : List Byte}
    (hrest : load mem (temp + (start + 1)) rest.length = rest) (hdot : ascii '.' ∉ rest) :
    autoAdaptLoop mem temp (start + 1 + (rest.takeWhile isFilename).length) start =
      scanned (load mem (temp + 1) start ++ rest) := by
  induction start generalizing rest with
  | zero =>
    rw [load_zero, List.nil_append, scanned, Span.lastFrom_eq_none.mpr hdot]
    rfl
  | succ start ih =>
    have hall : load mem (temp + (start + 1)) (rest.length + 1) =
        mem (temp + (start + 1)) :: rest := by
      rw [load_succ, Nat.add_assoc, hrest]
    rw [autoAdaptLoop, load_succ_last, List.append_assoc, List.singleton_append,
      Nat.add_assoc temp 1, Nat.add_comm 1 start]
    generalize hch : mem (temp + (start + 1)) = ch at hall
    by_cases hstop : ch = ascii '.'
    · subst hstop
      have hlast : Span.lastFrom (ascii '.') (ascii '.' :: rest) = some (ascii '.' :: rest) := by
        rw [Span.lastFrom, Span.lastFrom_eq_none.mpr hdot]
        rfl
      have hkept : load mem (temp + (start + 1)) ((rest.takeWhile isFilename).length + 1) =
          ascii '.' :: rest.takeWhile isFilename := by
        rw [load_succ, hch, Nat.add_assoc, (load_eq_append
          (hrest.trans List.takeWhile_append_dropWhile.symm)).1]
      have hcount : start + 1 + 1 + (rest.takeWhile isFilename).length - (start + 1) =
          (rest.takeWhile isFilename).length + 1 := by omega
      rw [if_pos rfl, hcount, hkept, scanned, Span.lastFrom_of_append_some _ hlast]
      rfl
    · have hdot' : ascii '.' ∉ ch :: rest := by
        rw [List.mem_cons, not_or]
        exact ⟨fun heq ↦ hstop heq.symm, hdot⟩
      have hrun := ih (by rw [List.length_cons, hall]) hdot'
      rw [if_neg hstop]
      by_cases hname : isFilename ch = true
      · rw [if_pos hname, ← hrun, List.takeWhile_cons, if_pos hname]
        congr 1
        rw [List.length_cons]
        omega
      · rw [if_neg hname, ← hrun, List.takeWhile_cons, if_neg hname]
        rfl

/-- `AutoAdapt` on a URI behind which there is a blank. -/
theorem autoAdapt_eq {mem : ℕ → Byte} {temp : ℕ} {uri : List Byte}
    (huri : load mem temp uri.length = uri) (hnext : mem (temp + uri.length) = ascii ' ') :
    autoAdapt mem ⟨some temp, uri.length⟩ = scanned uri.tail := by
  cases uri with
  | nil => rfl
  | cons ch rest =>
    rw [List.length_cons] at hnext
    rw [List.length_cons, load_succ, List.cons.injEq] at huri
    have hblank : ascii ' ' ≠ ascii '.' := by decide
    have hname : isFilename (ascii ' ') = true := by decide
    have hrun := @autoAdaptLoop_eq mem temp rest.length [] rfl List.not_mem_nil
    rw [List.append_nil, huri.2] at hrun
    change autoAdaptLoop mem temp (rest.length + 1) (rest.length + 1) = scanned rest
    rw [autoAdaptLoop, hnext, if_neg hblank, if_pos hname, ← hrun]
    rfl

/-! ## Where the scan finds the extension -/

theorem path_append_query (uri : List Byte) : uriPath uri ++ uriQuery uri = uri :=
  List.takeWhile_append_dropWhile

/-- A query begins with a question mark. -/
theorem takeWhile_append_query {extension : List Byte}
    (hname : ∀ ch ∈ extension, isFilename ch = true) (uri : List Byte) :
    (extension ++ uriQuery uri).takeWhile isFilename = extension := by
  have hstop : (uriQuery uri).takeWhile isFilename = [] := by
    unfold uriQuery
    cases hquery : uri.dropWhile (· ≠ ascii '?') with
    | nil => rfl
    | cons ch rest =>
      have hne : uri.dropWhile (· ≠ ascii '?') ≠ [] := by
        rw [hquery]
        exact List.cons_ne_nil _ _
      have hhead := List.head_dropWhile_not (· ≠ ascii '?') hne
      simp only [hquery, List.head_cons, decide_eq_false_iff_not, not_not] at hhead
      subst hhead
      rfl
  rw [List.takeWhile_append_of_pos hname, hstop, List.append_nil]

/-- A dot in the query is behind the first byte of the URI. -/
theorem dot_mem_tail {uri : List Byte} (hdot : ascii '.' ∈ uriQuery uri) :
    ascii '.' ∈ uri.tail := by
  cases uri with
  | nil => exact absurd hdot List.not_mem_nil
  | cons ch rest =>
    rw [uriQuery, List.dropWhile_cons] at hdot
    split at hdot
    next => exact (List.dropWhile_suffix _).subset hdot
    next hmark =>
      have hch : ch = ascii '?' := by simpa using hmark
      have hne : ascii '.' ≠ ascii '?' := by decide
      subst hch
      exact (List.mem_cons.mp hdot).resolve_left hne

theorem lastFrom_of_tail {uri suffix : List Byte}
    (hlast : Span.lastFrom (ascii '.') uri.tail = some suffix) :
    Span.lastFrom (ascii '.') uri = some suffix := by
  cases uri with
  | nil => exact hlast
  | cons ch rest => exact Span.lastFrom_of_append_some [ch] hlast

/-- The extension of a file name goes up to the query. -/
theorem lastFrom_of_fileName {uri extension : List Byte}
    (hname : Span.lastFrom (ascii '.') (fileName uri) = some extension)
    (hquery : Span.lastFrom (ascii '.') (uriQuery uri) = none) :
    Span.lastFrom (ascii '.') uri = some (extension ++ uriQuery uri) := by
  have hpath : Span.lastFrom (ascii '.') (uriPath uri) = some extension := by
    rw [← List.rdropWhile_append_rtakeWhile (p := (· ≠ ascii '/')) (l := uriPath uri)]
    exact Span.lastFrom_of_append_some _ hname
  calc Span.lastFrom (ascii '.') uri = Span.lastFrom (ascii '.') (uriPath uri ++ uriQuery uri) := by
        rw [path_append_query]
    _ = some (extension ++ uriQuery uri) := by
        rw [Span.lastFrom_of_append_none _ hquery, hpath]
        rfl

/-! ## Which types are right -/

/-- `AutoAdapt` returns the type of the file name. -/
def Adapts (mem : ℕ → Byte) (temp : ℕ) (uri : List Byte) : Prop :=
  autoAdapt mem ⟨some temp, uri.length⟩ = .ok (mediaType uri)

/-- The extension of the file name is not in the table, and the URI has no dot behind its first
byte. Or it is in the table, and the last dot behind the first byte is not in the query, or begins
an extension of the same type there. -/
def Unmistaken (uri : List Byte) : Prop :=
  (fileType uri = none ∧ ascii '.' ∉ uri.tail) ∨
  ∃ type, fileType uri = some type ∧
    ((ascii '.' ∈ uri.tail ∧ ascii '.' ∉ uriQuery uri) ∨
      ∃ suffix, Span.lastFrom (ascii '.') (uriQuery uri) = some suffix ∧
        typeOf (suffix.takeWhile isFilename) = some type)

/-- The type of an extension in the table is not the default type. -/
theorem mediaType_eq_default {uri : List Byte} :
    mediaType uri = defaultMIME ↔ fileType uri = none := by
  unfold mediaType
  cases hfile : fileType uri with
  | none => simp
  | some type =>
    obtain ⟨extension, -, htype⟩ := Option.bind_eq_some_iff.mp hfile
    simp [(regular_of_typeOf htype).2.2]

theorem typeOf_eq_mediaType {extension uri : List Byte} :
    typeOf extension = some (mediaType uri) ↔
      ∃ type, fileType uri = some type ∧ typeOf extension = some type := by
  constructor
  · intro htype
    cases hfile : fileType uri with
    | none =>
      have hdefault := mediaType_eq_default.mpr hfile
      exact absurd hdefault (regular_of_typeOf htype).2.2
    | some type =>
      rw [mediaType, hfile, Option.getD_some] at htype
      exact ⟨type, rfl, htype⟩
  · rintro ⟨type, hfile, htype⟩
    rw [mediaType, hfile, Option.getD_some, htype]

/-- Where the file name has a type, the last dot leads to it unless it is in the query and leads to
another one. -/
theorem typeOf_suffix_iff {uri suffix type : List Byte}
    (htail : Span.lastFrom (ascii '.') uri.tail = some suffix) (hfile : fileType uri = some type) :
    typeOf (suffix.takeWhile isFilename) = some type ↔
      (ascii '.' ∈ uri.tail ∧ ascii '.' ∉ uriQuery uri) ∨
        ∃ suffix', Span.lastFrom (ascii '.') (uriQuery uri) = some suffix' ∧
          typeOf (suffix'.takeWhile isFilename) = some type := by
  have hlast := lastFrom_of_tail htail
  cases hquery : Span.lastFrom (ascii '.') (uriQuery uri) with
  | none =>
    obtain ⟨extension, hname, htype⟩ := Option.bind_eq_some_iff.mp hfile
    have hwhole := lastFrom_of_fileName hname hquery
    rw [hlast, Option.some.injEq] at hwhole
    rw [hwhole, takeWhile_append_query (regular_of_typeOf htype).1]
    exact iff_of_true htype
      (.inl ⟨Span.mem_of_lastFrom htail, Span.lastFrom_eq_none.mp hquery⟩)
  | some suffix' =>
    have hwhole := Span.lastFrom_of_append_some (uriPath uri) hquery
    rw [path_append_query, hlast, Option.some.injEq] at hwhole
    subst hwhole
    constructor
    · intro htype
      exact .inr ⟨suffix, rfl, htype⟩
    · rintro (⟨-, hnot⟩ | ⟨_, ⟨⟩, htype⟩)
      · exact absurd (Span.mem_of_lastFrom hquery) hnot
      · exact htype

theorem adapts_iff {mem : ℕ → Byte} {temp : ℕ} {uri : List Byte}
    (huri : load mem temp uri.length = uri) (hnext : mem (temp + uri.length) = ascii ' ') :
    Adapts mem temp uri ↔ Unmistaken uri := by
  unfold Adapts Unmistaken
  rw [autoAdapt_eq huri hnext, scanned]
  cases htail : Span.lastFrom (ascii '.') uri.tail with
  | none =>
    have hdot := Span.lastFrom_eq_none.mp htail
    have hquery : Span.lastFrom (ascii '.') (uriQuery uri) = none :=
      Span.lastFrom_eq_none.mpr fun hmem ↦ hdot (dot_mem_tail hmem)
    rw [Except.ok.injEq, eq_comm, mediaType_eq_default]
    simp [hdot, hquery]
  | some suffix =>
    have hdot := Span.mem_of_lastFrom htail
    dsimp only
    rw [mime_eq_ok, typeOf_eq_mediaType, or_iff_right fun hboth ↦ hboth.2 hdot]
    exact exists_congr fun type ↦ and_congr_right (typeOf_suffix_iff htail)

theorem adapts_clip : Adapts (store (fun _ ↦ ascii ' ') 0 (text "/v1/clip.3gp?a=b")) 0
    (text "/v1/clip.3gp?a=b") :=
  (adapts_iff (by decide) (by decide)).mpr
    (.inr ⟨text "video/3gpp", by decide +kernel, .inl (by decide)⟩)

/-- With a dot in the query, what is behind it is looked up. -/
theorem not_adapts_query : (∀ ch ∈ text "/index.html?v=1.2", isUri ch = true) ∧
    ¬ Adapts (store (fun _ ↦ ascii ' ') 0 (text "/index.html?v=1.2")) 0
      (text "/index.html?v=1.2") := by
  have hmiss : ∀ entry ∈ FastFindMIMEMatcher.contentType, encoded entry.1 ≠ text ".2" := by
    decide +kernel
  have hlast : Span.lastFrom (ascii '.') (text "/index.html?v=1.2").tail = some (text ".2") := by
    decide
  refine ⟨forall_mem_of_all (by decide), fun hadapts ↦ ?_⟩
  rw [Adapts, autoAdapt_eq (by decide) (by decide), scanned, hlast] at hadapts
  have hfound := mime_eq_ok.mp hadapts
  have hkey : (text ".2").takeWhile isFilename = text ".2" := by decide
  rw [hkey, typeOf_eq_none hmiss] at hfound
  cases hfound

end LWebServer.Provider
