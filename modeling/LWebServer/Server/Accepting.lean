import Mathlib.Data.List.Count
import Mathlib.Data.List.Nodup
import Mathlib.Data.List.Range
import Mathlib.Data.Nat.Notation
import Mathlib.Logic.Function.Basic

/-!
# Accepting connections

`Server_Accept` takes a connection and hands it on. When the process has run out of descriptors it
gives up a reserve descriptor for a moment, to take the connection and turn it away; what it closes
then is the listening descriptor.
-/

namespace LWebServer

/-- What a descriptor stands for: the listening socket, a file that `fileopen` has opened, or a
connection, numbered in the order of the calls. -/
inductive OpenFile where
  | listening
  | reserve (k : ℕ)
  | connection (k : ℕ)
  deriving DecidableEq, Repr

/-- What an `accept4` answers. -/
inductive Accept4 where
  | descriptor (n : ℕ)
  /-- `-1` with `EMFILE` -/
  | emfile
  /-- `-1` with `EWOULDBLOCK` or `EAGAIN` -/
  | eagain
  /-- `-1` with any other `errno` -/
  | failed
  deriving DecidableEq, Repr

/-- `ws::Server` as far as descriptors go: the open ones, its own, and the member `File_Description`
of its `fileopen`, which is `none` for -1. `handed` are the connections given to the callback and
`closed` is what the server has closed. -/
structure Server where
  files : ℕ → Option OpenFile
  fd : ℕ
  fileDescription : Option ℕ
  accepts : ℕ
  opens : ℕ
  handed : List ℕ
  closed : List OpenFile

/-- A call of `Server_Accept(fun&&)`: the descriptors that the connections have closed before it,
the answers to the `accept4` of its loop and to the second one, and to the `open` behind that. -/
structure ServerAccept where
  released : List ℕ
  answers : List Accept4
  second : Accept4
  reopened : Option ℕ

namespace Server

/-- `::close`, which has no effect on a number that is not open. -/
def close (n : ℕ) (s : Server) : Server :=
  match s.files n with
  | some file => { s with files := Function.update s.files n none, closed := file :: s.closed }
  | none => s

/-- `::open` of `/dev/null`, where it gives a descriptor. -/
def openFile (opened : Option ℕ) (s : Server) : Server :=
  match opened with
  | some n =>
    { s with files := Function.update s.files n (some (.reserve s.opens)), opens := s.opens + 1 }
  | none => s

/-- The base class: a listening socket with the number `fd`. -/
def ofSocket (fd : ℕ) : Server where
  files := Function.update (fun _ ↦ none) fd (some .listening)
  fd := fd
  fileDescription := none
  accepts := 0
  opens := 0
  handed := []
  closed := []

/-- The constructor. `O_CREAT | O_EXCL` fails if the file is present; otherwise the kernel gives
`free`. -/
def new (fd : ℕ) (present : Bool) (free : Option ℕ) : Server :=
  let opened := if present then none else free
  { (ofSocket fd).openFile opened with fileDescription := opened }

/-- `fileopen::Close` -/
def closeReserve (s : Server) : Server :=
  match s.fileDescription with
  | some n => s.close n
  | none => s

/-- `fileopen::Open`, which drops the number it gets. -/
def openReserve (opened : Option ℕ) (s : Server) : Server := s.openFile opened

/-- An `accept4` that succeeds. -/
def accept (n : ℕ) (s : Server) : Server :=
  { s with
    files := Function.update s.files n (some (.connection s.accepts)), accepts := s.accepts + 1 }

/-- `f(ret)` for the connection just accepted. -/
def hand (s : Server) : Server := { s with handed := (s.accepts - 1) :: s.handed }

/-- The branch for `EMFILE`. -/
def turnAway (call : ServerAccept) (s : Server) : Server :=
  let s := s.closeReserve
  let s := match call.second with
    | .descriptor n => s.accept n
    | _ => s
  let s := s.close s.fd
  s.openReserve call.reopened

/-- The loop of `Server_Accept`, over the answers to its `accept4`. It has not returned where these
come to an end. -/
def acceptLoop (call : ServerAccept) : List Accept4 → Server → Option Server
  | [], _ => none
  | .descriptor n :: _, s => some (s.accept n).hand
  | .emfile :: _, s => some (s.turnAway call)
  | .eagain :: answers, s => acceptLoop call answers s
  | .failed :: _, s => some s

/-- A connection closes its descriptor. -/
def release (n : ℕ) (s : Server) : Server :=
  match s.files n with
  | some (.connection _) => { s with files := Function.update s.files n none }
  | _ => s

def releaseAll (numbers : List ℕ) (s : Server) : Server :=
  numbers.foldl (fun s n ↦ s.release n) s

/-- `Server_Accept(fun&&)` -/
def serverAccept (call : ServerAccept) (s : Server) : Option Server :=
  acceptLoop call call.answers (s.releaseAll call.released)

/-- The states in which a sequence of calls returns. -/
def returns : List ServerAccept → Server → List Server
  | [], _ => []
  | call :: calls, s =>
    match s.serverAccept call with
    | some s' => s' :: returns calls s'
    | none => []

/-! ## The account -/

/-- The account of the descriptors. -/
structure Accounted (s : Server) : Prop where
  listening : .listening ∉ s.closed
  disposed : ∀ k < s.accepts, s.handed.count k + s.closed.count (.connection k) = 1
  reserve : ∃ n k, s.fileDescription = some n ∧ s.files n = some (.reserve k)

end Server

/-- The answer that ends the loop. -/
def ServerAccept.decisive (call : ServerAccept) : Option Accept4 :=
  call.answers.find? fun answer ↦ answer ≠ .eagain

namespace Server

/-- The kernel gives out numbers that are not in use. -/
def Obeyed (call : ServerAccept) (s : Server) : Prop :=
  match call.decisive with
  | some (.descriptor n) => (s.releaseAll call.released).files n = none
  | some .emfile => ∀ n, call.second = .descriptor n →
      (s.releaseAll call.released).closeReserve.files n = none
  | _ => True

/-- The kernel does so along a sequence of calls. -/
def ObeyedAlong : List ServerAccept → Server → Prop
  | [], _ => True
  | call :: calls, s => Obeyed call s ∧ ∀ s' ∈ s.serverAccept call, ObeyedAlong calls s'

end Server

/-- The calls of a sequence that return. -/
def returningCalls (calls : List ServerAccept) : List ServerAccept :=
  calls.takeWhile fun call ↦ call.decisive.isSome

namespace Server

variable {call : ServerAccept} {s s' : Server} {n : ℕ}

/-- What a call does. -/
theorem serverAccept_eq (call : ServerAccept) (s : Server) :
    s.serverAccept call = match call.decisive with
      | some (.descriptor n) => some ((s.releaseAll call.released).accept n).hand
      | some .emfile => some ((s.releaseAll call.released).turnAway call)
      | some _ => some (s.releaseAll call.released)
      | none => none := by
  unfold serverAccept ServerAccept.decisive
  generalize s.releaseAll call.released = t
  induction call.answers with
  | nil => rfl
  | cons answer answers ih =>
    cases answer with
    | descriptor | emfile | failed => rfl
    | eagain => exact ih

/-! ## One call -/

/-- Nothing has been closed, `File_Description` is open if the constructor has got one, and all
connections have been handed on. -/
structure Regular (s : Server) : Prop where
  listening : s.files s.fd = some .listening
  reserve : ∀ n ∈ s.fileDescription, ∃ k, s.files n = some (.reserve k)
  closed : s.closed = []
  handed : s.handed = (List.range s.accepts).reverse

theorem Regular.accounted_iff (hregular : s.Regular) :
    s.Accounted ↔ s.fileDescription ≠ none := by
  constructor
  · rintro ⟨-, -, n, k, hnumber, -⟩ hnone
    cases hnone.symm.trans hnumber
  · intro hsome
    obtain ⟨n, hnumber⟩ := Option.ne_none_iff_exists'.mp hsome
    obtain ⟨k, hfile⟩ := hregular.reserve n hnumber
    refine ⟨?_, fun k hk ↦ ?_, n, k, hnumber, hfile⟩
    · rw [hregular.closed]
      exact List.not_mem_nil
    · have hnodup : (List.range s.accepts).reverse.Nodup :=
        List.nodup_reverse.mpr List.nodup_range
      have hmem : k ∈ (List.range s.accepts).reverse := by simpa using hk
      rw [hregular.closed, hregular.handed, List.count_eq_one_of_mem hnodup hmem,
        List.count_nil]

/-- A descriptor that is released stands for a connection. -/
theorem release_frame (n : ℕ) (s : Server) :
    (s.release n).fd = s.fd ∧ (s.release n).fileDescription = s.fileDescription ∧
      (s.release n).closed = s.closed ∧ (s.release n).handed = s.handed ∧
      (s.release n).accepts = s.accepts ∧
      ∀ m file, (∀ k, file ≠ .connection k) → s.files m = some file →
        (s.release n).files m = some file := by
  unfold release
  split
  case h_2 => exact ⟨rfl, rfl, rfl, rfl, rfl, fun _ _ _ hfile ↦ hfile⟩
  case h_1 k hconnection =>
    refine ⟨rfl, rfl, rfl, rfl, rfl, fun m file hother hfile ↦ ?_⟩
    have hne : m ≠ n := by
      rintro rfl
      rw [hconnection] at hfile
      cases hfile
      exact hother k rfl
    exact (Function.update_of_ne hne _ _).trans hfile

theorem releaseAll_frame (numbers : List ℕ) (s : Server) :
    (s.releaseAll numbers).fd = s.fd ∧
      (s.releaseAll numbers).fileDescription = s.fileDescription ∧
      (s.releaseAll numbers).closed = s.closed ∧ (s.releaseAll numbers).handed = s.handed ∧
      (s.releaseAll numbers).accepts = s.accepts ∧
      ∀ m file, (∀ k, file ≠ .connection k) → s.files m = some file →
        (s.releaseAll numbers).files m = some file := by
  induction numbers generalizing s with
  | nil => exact ⟨rfl, rfl, rfl, rfl, rfl, fun _ _ _ hfile ↦ hfile⟩
  | cons n numbers ih =>
    obtain ⟨hfd, hdescription, hclosed, hhanded, haccepts, hfiles⟩ := s.release_frame n
    obtain ⟨hfd', hdescription', hclosed', hhanded', haccepts', hfiles'⟩ := ih (s.release n)
    exact ⟨hfd'.trans hfd, hdescription'.trans hdescription, hclosed'.trans hclosed,
      hhanded'.trans hhanded, haccepts'.trans haccepts,
      fun m file hother hfile ↦ hfiles' m file hother (hfiles m file hother hfile)⟩

theorem Regular.releaseAll (hregular : s.Regular) (numbers : List ℕ) :
    (s.releaseAll numbers).Regular := by
  obtain ⟨hfd, hdescription, hclosed, hhanded, haccepts, hfiles⟩ := s.releaseAll_frame numbers
  constructor
  · rw [hfd]
    exact hfiles _ _ (fun _ h ↦ OpenFile.noConfusion h) hregular.listening
  · intro n hnumber
    rw [hdescription] at hnumber
    obtain ⟨k, hfile⟩ := hregular.reserve n hnumber
    exact ⟨k, hfiles _ _ (fun _ h ↦ OpenFile.noConfusion h) hfile⟩
  · rw [hclosed, hregular.closed]
  · rw [hhanded, haccepts, hregular.handed]

theorem Regular.hand_accept (hregular : s.Regular) (hunused : s.files n = none) :
    (s.accept n).hand.Regular := by
  have hother {m : ℕ} {file : OpenFile} (hfile : s.files m = some file) :
      (s.accept n).hand.files m = some file := by
    refine (Function.update_of_ne ?_ _ _).trans hfile
    rintro rfl
    rw [hunused] at hfile
    cases hfile
  refine ⟨hother hregular.listening, fun m hnumber ↦ ?_, hregular.closed, ?_⟩
  · obtain ⟨k, hfile⟩ := hregular.reserve m hnumber
    exact ⟨k, hother hfile⟩
  · change s.accepts :: s.handed = (List.range (s.accepts + 1)).reverse
    rw [List.range_succ, List.reverse_append, hregular.handed]
    rfl

/-- Turning a connection away closes the listening descriptor. -/
theorem Regular.listening_mem_closed (hregular : s.Regular)
    (hunused : ∀ n, call.second = .descriptor n → s.closeReserve.files n = none) :
    .listening ∈ (s.turnAway call).closed := by
  have hfirst : s.closeReserve.files s.closeReserve.fd = some .listening := by
    unfold closeReserve
    cases hdescription : s.fileDescription with
    | none => exact hregular.listening
    | some m =>
      obtain ⟨k, hfile⟩ := hregular.reserve m hdescription
      have hne : s.fd ≠ m := by
        rintro rfl
        rw [hregular.listening] at hfile
        cases hfile
      dsimp only
      unfold close
      split
      · exact (Function.update_of_ne hne _ _).trans hregular.listening
      · exact hregular.listening
  have hclose {t : Server} (hlistening : t.files t.fd = some .listening) :
      .listening ∈ ((t.close t.fd).openReserve call.reopened).closed := by
    have hopen (u : Server) : (u.openReserve call.reopened).closed = u.closed := by
      unfold openReserve openFile
      split <;> rfl
    rw [hopen, close, hlistening]
    exact List.mem_cons_self
  unfold turnAway
  cases hsecond : call.second with
  | descriptor n =>
    have hnone := hunused n hsecond
    have hne : s.closeReserve.fd ≠ n := by
      rintro rfl
      rw [hfirst] at hnone
      cases hnone
    exact hclose ((Function.update_of_ne hne _ _).trans hfirst)
  | emfile | eagain | failed => exact hclose hfirst

/-- A call that is not short of descriptors. -/
theorem Regular.serverAccept (hregular : s.Regular) (hobeyed : Obeyed call s)
    (henough : call.decisive ≠ some .emfile) (hreturns : s.serverAccept call = some s') :
    s'.Regular ∧ s'.fileDescription = s.fileDescription := by
  have hreleased := hregular.releaseAll call.released
  have hdescription := (s.releaseAll_frame call.released).2.1
  rw [serverAccept_eq] at hreturns
  unfold Obeyed at hobeyed
  cases hdecisive : call.decisive with
  | none =>
    rw [hdecisive] at hreturns
    cases hreturns
  | some answer =>
    rw [hdecisive] at hreturns hobeyed
    cases answer with
    | descriptor n =>
      cases hreturns
      exact ⟨hreleased.hand_accept hobeyed, hdescription⟩
    | emfile => exact absurd hdecisive henough
    | eagain | failed =>
      cases hreturns
      exact ⟨hreleased, hdescription⟩

/-- A call that is short of them. -/
theorem Regular.not_accounted (hregular : s.Regular) (hobeyed : Obeyed call s)
    (hshort : call.decisive = some .emfile) :
    ∃ s', s.serverAccept call = some s' ∧ ¬ s'.Accounted := by
  unfold Obeyed at hobeyed
  rw [hshort] at hobeyed
  refine ⟨(s.releaseAll call.released).turnAway call, ?_, fun haccounted ↦ ?_⟩
  · rw [serverAccept_eq, hshort]
  · exact haccounted.listening
      ((hregular.releaseAll call.released).listening_mem_closed hobeyed)

/-! ## All calls -/

theorem regular_ofSocket (fd : ℕ) : (ofSocket fd).Regular where
  listening := by simp [ofSocket]
  reserve n hn := by cases hn
  closed := rfl
  handed := rfl

theorem Regular.openFile (hregular : s.Regular) {opened : Option ℕ} (hfree : opened ≠ some s.fd) :
    { s.openFile opened with fileDescription := opened : Server }.Regular := by
  cases opened with
  | none =>
    refine ⟨hregular.listening, fun n hn ↦ ?_, hregular.closed, hregular.handed⟩
    cases hn
  | some n =>
    have hne : s.fd ≠ n := by
      rintro rfl
      exact hfree rfl
    refine ⟨?_, fun m hm ↦ ⟨s.opens, ?_⟩, hregular.closed, hregular.handed⟩
    · exact (Function.update_of_ne hne _ _).trans hregular.listening
    · cases hm
      exact Function.update_self _ _ _

theorem regular_new {fd : ℕ} (present : Bool) {free : Option ℕ} (hfree : free ≠ some fd) :
    (new fd present free).Regular := by
  apply (regular_ofSocket fd).openFile
  cases present with
  | true => exact fun h ↦ by cases h
  | false => exact hfree

theorem fileDescription_new (fd : ℕ) (present : Bool) (free : Option ℕ) :
    (new fd present free).fileDescription = if present then none else free := rfl

theorem returningCalls_cons (hreturns : s.serverAccept call = some s') (calls : List ServerAccept) :
    returningCalls (call :: calls) = call :: returningCalls calls := by
  have hsome : call.decisive.isSome = true := by
    rw [serverAccept_eq] at hreturns
    cases hdecisive : call.decisive with
    | none =>
      rw [hdecisive] at hreturns
      cases hreturns
    | some answer => rfl
  exact List.takeWhile_cons_of_pos hsome

theorem returningCalls_cons_of_none (hreturns : s.serverAccept call = none)
    (calls : List ServerAccept) : returningCalls (call :: calls) = [] := by
  have hnone : ¬ call.decisive.isSome = true := by
    rw [serverAccept_eq] at hreturns
    cases hdecisive : call.decisive with
    | none => exact Bool.false_ne_true
    | some answer =>
      rw [hdecisive] at hreturns
      cases answer <;> cases hreturns
  exact List.takeWhile_cons_of_neg hnone

theorem accounted_returns_iff {calls : List ServerAccept} (hregular : s.Regular)
    (hobeyed : ObeyedAlong calls s) : (∀ s' ∈ returns calls s, s'.Accounted) ↔
      (∀ call ∈ returningCalls calls, call.decisive ≠ some .emfile) ∧
        (returningCalls calls ≠ [] → s.fileDescription ≠ none) := by
  induction calls generalizing s with
  | nil => simp [returns, returningCalls]
  | cons call calls ih =>
    obtain ⟨hnow, hlater⟩ := hobeyed
    unfold returns
    cases hreturns : s.serverAccept call with
    | none =>
      rw [returningCalls_cons_of_none hreturns]
      simp
    | some s' =>
      rw [returningCalls_cons hreturns]
      dsimp only
      rw [List.forall_mem_cons, List.forall_mem_cons]
      by_cases hshort : call.decisive = some .emfile
      · obtain ⟨t, ht, hnot⟩ := hregular.not_accounted hnow hshort
        cases hreturns.symm.trans ht
        exact iff_of_false (fun h ↦ hnot h.1) (fun h ↦ h.1.1 hshort)
      · obtain ⟨hregular', hsame⟩ := hregular.serverAccept hnow hshort hreturns
        rw [hregular'.accounted_iff, ih hregular' (hlater s' hreturns), hsame]
        constructor
        · rintro ⟨hreserve, hrest, -⟩
          exact ⟨⟨hshort, hrest⟩, fun _ ↦ hreserve⟩
        · rintro ⟨⟨-, hrest⟩, hreserve⟩
          have hsome := hreserve (List.cons_ne_nil _ _)
          exact ⟨hsome, hrest, fun _ ↦ hsome⟩

/-- The account is right whenever `Server_Accept` returns exactly if no call is short of descriptors
and, if there is a call that returns, the constructor has opened the reserve descriptor. -/
theorem accounted_iff_of_new {fd : ℕ} {present : Bool} {free : Option ℕ}
    (calls : List ServerAccept) (hfree : free ≠ some fd)
    (hobeyed : ObeyedAlong calls (new fd present free)) :
    (∀ s ∈ returns calls (new fd present free), s.Accounted) ↔
      (∀ call ∈ returningCalls calls, call.decisive ≠ some .emfile) ∧
        (returningCalls calls ≠ [] → present = false ∧ free ≠ none) := by
  rw [accounted_returns_iff (regular_new present hfree) hobeyed, fileDescription_new]
  cases present <;> simp

/-- One connection, without trouble. -/
def oneCall : ServerAccept where
  released := []
  answers := [.eagain, .descriptor 5]
  second := .failed
  reopened := none

theorem accounted_iff_of_new_oneCall :
    (∀ s ∈ returns [oneCall] (new 3 false (some 4)), s.Accounted) ↔
      (∀ call ∈ returningCalls [oneCall], call.decisive ≠ some .emfile) ∧
        (returningCalls [oneCall] ≠ [] → false = false ∧ some 4 ≠ none) :=
  accounted_iff_of_new _ (by decide) ⟨rfl, fun _ _ ↦ trivial⟩

/-- The process is out of descriptors. -/
def shortCall : ServerAccept where
  released := []
  answers := [.emfile]
  second := .descriptor 4
  reopened := some 3

/-- The listening descriptor is closed, the connection is neither handed on nor closed, and the
reserve gets the number of the listening descriptor. -/
theorem not_accounted_shortCall : ObeyedAlong [shortCall] (new 3 false (some 4)) ∧
    ∃ s ∈ returns [shortCall] (new 3 false (some 4)), ¬ s.Accounted ∧
      .listening ∈ s.closed ∧ s.files 4 = some (.connection 0) ∧ s.handed = [] := by
  refine ⟨⟨?_, fun _ _ ↦ trivial⟩, _, List.mem_singleton_self _, ?_, ?_, ?_, ?_⟩
  · intro n hn
    cases hn
    decide
  · intro haccounted
    exact haccounted.listening (by decide)
  · decide
  · decide
  · decide

end Server

end LWebServer
