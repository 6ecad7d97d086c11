import LWebServer.Log.Logging
import Mathlib.Data.List.Chain
import Mathlib.Data.List.Nodup

/-!
# The order of the log

The text of a statement is handed over by the next statement of its level, or at the end. So the log
is in the order of the calls if that is the next statement of all, and has room for its header
behind the text. A statement of level `FATAL` hands over the texts of its own level and ends the
process.
-/

namespace LWebServer

open LogStream

/-- The statements that are executed: all up to the first of level `FATAL`. -/
def executed : List Statement → List Statement
  | [] => []
  | s :: statements => if s.level = .fatal then [s] else s :: executed statements

/-- What the first statement of a level builds. -/
def builtFor (statements : List Statement) (s : Statement) : Logging :=
  .new ((statements.find? fun t ↦ t.level = s.level).getD s)

/-- The header of a statement. The file and the line in it are those of the first statement of its
level. -/
def headerOf (statements : List Statement) (s : Statement) : List Streamed :=
  (builtFor statements s).header s

theorem level_builtFor (statements : List Statement) (s : Statement) :
    (builtFor statements s).level = s.level := by
  unfold builtFor
  cases hfind : statements.find? fun t ↦ t.level = s.level with
  | none => rfl
  | some first =>
    have hlevel : first.level = s.level := by simpa using List.find?_some hfind
    exact hlevel

/-- The headers and the texts in the order of the calls. -/
def inOrder (statements done : List Statement) : List Byte :=
  done.flatMap fun s ↦ shownAll (headerOf statements s) ++ shownAll s.text

/-- The header and the text of each statement fit into an empty buffer. -/
def Moderate (statements : List Statement) : Prop :=
  ∀ s ∈ statements, Fits 0 (headerOf statements s) ∧ Fits 0 s.text

/-- The next statement hands over the text of this one before its own header. -/
def Follows (statements : List Statement) (s next : Statement) : Prop :=
  shownAll s.text = [] ∨
    next.level = s.level ∧ Fits (shownAll s.text).length (headerOf statements next)

instance (statements : List Statement) (s next : Statement) :
    Decidable (Follows statements s next) := inferInstanceAs (Decidable (_ ∨ _))

/-- A text is followed by a statement of its level, whose header fits behind it, and nothing is
streamed into a statement of level `FATAL`. -/
structure Orderly (statements : List Statement) : Prop where
  follows : statements.IsChain (Follows statements)
  fatal : ∀ s ∈ statements, s.level = .fatal → shownAll s.text = []

namespace LogProcess

theorem log_of_aborted {p : LogProcess} (haborted : p.aborted = true)
    (statements : List Statement) : statements.foldl (fun p s ↦ log s p) p = p := by
  induction statements with
  | nil => rfl
  | cons s statements ih =>
    have hlog : log s p = p := if_pos haborted
    rw [List.foldl_cons, hlog, ih]

/-- The text of the last statement. -/
def lastText (done : List Statement) : List Byte :=
  (done.getLast?.map fun s ↦ shownAll s.text).getD []

/-- The process behind some of the statements, none of which is of level `FATAL`: everything has
been handed over but the text of the last one, which is in the stream of its level. -/
structure Upto (all done : List Statement) (p : LogProcess) : Prop where
  running : p.aborted = false
  unknown : ∀ level, (∀ t ∈ done, t.level ≠ level) → p.logData level = none
  known : ∀ level first, done.find? (fun t ↦ t.level = level) = some first →
    ∃ stream, p.logData level = some { Logging.new first with stream := stream }
  quiet : ∀ level, (∀ t ∈ done.getLast?, t.level ≠ level) → p.pending level = []
  held : ∀ t ∈ done.getLast?, p.pending t.level = shownAll t.text
  nodup : p.constructed.Nodup
  constructed : ∀ level, level ∈ p.constructed ↔ (p.logData level).isSome
  output : p.output ++ lastText done = inOrder all done

theorem upto_new (all : List Statement) : Upto all [] new where
  running := rfl
  unknown _ _ := rfl
  known _ _ hfirst := by simp at hfirst
  quiet _ _ := rfl
  held _ hlast := by simp at hlast
  nodup := List.nodup_nil
  constructed _ := by simp [new]
  output := rfl

section

variable {all done rest : List Statement} {s : Statement} {p : LogProcess}

/-- The stream that `getStream` finds or builds. -/
theorem Upto.logging (hupto : Upto all done p) (hall : all = done ++ s :: rest) :
    ∃ stream, (p.logData s.level).getD (.new s) = { builtFor all s with stream := stream } ∧
      stream.content = p.pending s.level := by
  rw [builtFor, hall, List.find?_append]
  cases hfind : done.find? fun t ↦ t.level = s.level with
  | some first =>
    obtain ⟨stream, hdata⟩ := hupto.known s.level first hfind
    refine ⟨stream, ?_, ?_⟩
    · rw [hdata]
      rfl
    · rw [pending, hdata]
      rfl
  | none =>
    have hnone : p.logData s.level = none := by
      apply hupto.unknown
      simpa using List.find?_eq_none.mp hfind
    refine ⟨.new, ?_, ?_⟩
    · rw [hnone]
      simp
      rfl
    · rw [pending, hnone]
      rfl

/-- It holds the text of the last statement. -/
theorem Upto.pending_eq (hupto : Upto all done p)
    (hfollows : ∀ t ∈ done.getLast?, Follows all t s) : p.pending s.level = lastText done := by
  cases hlast : done.getLast? with
  | none =>
    rw [lastText, hlast]
    exact hupto.quiet _ (by simp [hlast])
  | some t =>
    have hheld := hupto.held t hlast
    have htext : lastText done = shownAll t.text := by
      rw [lastText, hlast]
      rfl
    rw [htext]
    by_cases hsame : s.level = t.level
    · rw [hsame, hheld]
    · have hempty := (hfollows t hlast).resolve_right fun h ↦ hsame h.1
      rw [hempty]
      apply hupto.quiet
      intro t' ht' hlevel
      cases hlast.symm.trans ht'
      exact hsame hlevel.symm

theorem Upto.fits (hfollows : ∀ t ∈ done.getLast?, Follows all t s)
    (hheader : Fits 0 (headerOf all s)) :
    Fits (lastText done).length (headerOf all s) := by
  cases hlast : done.getLast? with
  | none =>
    rw [lastText, hlast]
    exact hheader
  | some t =>
    rw [lastText, hlast]
    rcases hfollows t hlast with hempty | ⟨-, hfits⟩
    · rw [Option.map_some, Option.getD_some, hempty]
      exact hheader
    · exact hfits

/-- `getStream` hands over the last text and the header. -/
theorem Upto.getStream_eq (hupto : Upto all done p) (hall : all = done ++ s :: rest)
    (hfollows : ∀ t ∈ done.getLast?, Follows all t s)
    (hheader : Fits 0 (headerOf all s)) : getStream s p = {
      logData := Function.update p.logData s.level (some (builtFor all s))
      constructed :=
        if (p.logData s.level).isSome then p.constructed else s.level :: p.constructed
      output := inOrder all done ++ shownAll (headerOf all s)
      aborted := s.level = .fatal } := by
  obtain ⟨stream, hlogging, hcontent⟩ := hupto.logging hall
  rw [hupto.pending_eq hfollows] at hcontent
  have hput : (putAll (headerOf all s) stream).content =
      lastText done ++ shownAll (headerOf all s) := by
    rw [← hcontent]
    apply content_putAll
    rw [hcontent]
    exact Upto.fits hfollows hheader
  have houtput : p.output ++ (putAll (headerOf all s) stream).content =
      inOrder all done ++ shownAll (headerOf all s) := by
    rw [hput, ← List.append_assoc, hupto.output]
  unfold LogProcess.getStream
  rw [hlogging, ← houtput, ← level_builtFor all s]
  rfl

theorem lastText_concat (done : List Statement) (s : Statement) :
    lastText (done ++ [s]) = shownAll s.text := by
  rw [lastText, List.getLast?_concat]
  rfl

theorem inOrder_concat (all done : List Statement) (s : Statement) :
    inOrder all (done ++ [s]) =
      inOrder all done ++ shownAll (headerOf all s) ++ shownAll s.text := by
  rw [inOrder, List.flatMap_append, List.flatMap_singleton, ← List.append_assoc]
  rfl

/-- The streams of the other levels are empty behind a statement. -/
theorem Upto.quiet_of_ne (hupto : Upto all done p)
    (hfollows : ∀ t ∈ done.getLast?, Follows all t s) {level : Loglevel}
    (hother : level ≠ s.level) : p.pending level = [] := by
  by_cases hlast : ∀ t ∈ done.getLast?, t.level ≠ level
  · exact hupto.quiet level hlast
  · push Not at hlast
    obtain ⟨t, ht, rfl⟩ := hlast
    rw [hupto.held t ht]
    exact (hfollows t ht).resolve_right fun h ↦ hother h.1.symm

/-- What a statement changes unless it ends the process. -/
structure Logged (all done : List Statement) (s : Statement) (p p' : LogProcess) : Prop where
  running : p'.aborted = false
  others : ∀ level, level ≠ s.level → p'.logData level = p.logData level
  built : ∃ stream, p'.logData s.level = some { builtFor all s with stream := stream }
  pending : p'.pending s.level = shownAll s.text
  constructed : p'.constructed =
    if (p.logData s.level).isSome then p.constructed else s.level :: p.constructed
  output : p'.output = inOrder all done ++ shownAll (headerOf all s)

theorem Upto.logged (hupto : Upto all done p) (hall : all = done ++ s :: rest)
    (hfollows : ∀ t ∈ done.getLast?, Follows all t s)
    (hheader : Fits 0 (headerOf all s)) (htext : Fits 0 s.text) (hlevel : s.level ≠ .fatal) :
    Logged all done s p (log s p) := by
  have hget := hupto.getStream_eq hall hfollows hheader
  have hempty : (builtFor all s).stream.content = [] := rfl
  have hcontent : (putAll s.text (builtFor all s).stream).content = shownAll s.text := by
    have hfits : Fits (builtFor all s).stream.content.length s.text := htext
    rw [content_putAll hfits, hempty, List.nil_append]
  have hlog : log s p = {
      logData := Function.update p.logData s.level
        (some { builtFor all s with stream := putAll s.text (builtFor all s).stream })
      constructed :=
        if (p.logData s.level).isSome then p.constructed else s.level :: p.constructed
      output := inOrder all done ++ shownAll (headerOf all s)
      aborted := false } := by
    unfold LogProcess.log
    rw [if_neg (by rw [hupto.running]; exact Bool.false_ne_true), hget,
      if_neg (by simpa using hlevel)]
    simp [streamText, hlevel]
  have hself : (log s p).logData s.level =
      some { builtFor all s with stream := putAll s.text (builtFor all s).stream } := by
    rw [hlog]
    exact Function.update_self _ _ _
  refine ⟨by rw [hlog], fun level hother ↦ ?_, ⟨_, hself⟩, ?_, by rw [hlog], by rw [hlog]⟩
  · rw [hlog]
    exact Function.update_of_ne hother _ _
  · rw [LogProcess.pending, hself]
    exact hcontent

theorem Logged.known {p' : LogProcess} (hlogged : Logged all done s p p')
    (hupto : Upto all done p) (hall : all = done ++ s :: rest) {level : Loglevel}
    {first : Statement} (hfirst : (done ++ [s]).find? (fun t ↦ t.level = level) = some first) :
    ∃ stream, p'.logData level = some { Logging.new first with stream := stream } := by
  by_cases hsame : level = s.level
  · subst hsame
    have hbuilt : builtFor all s = Logging.new first := by
      rw [builtFor, hall, List.append_cons, List.find?_append, hfirst]
      rfl
    exact hbuilt ▸ hlogged.built
  · rw [hlogged.others level hsame]
    apply hupto.known
    rw [List.find?_append] at hfirst
    simpa [Ne.symm hsame] using hfirst

theorem Logged.nodup {p' : LogProcess} (hlogged : Logged all done s p p')
    (hupto : Upto all done p) : p'.constructed.Nodup := by
  rw [hlogged.constructed]
  split_ifs with hbuilt
  · exact hupto.nodup
  · refine List.nodup_cons.mpr ⟨fun hmem ↦ hbuilt ?_, hupto.nodup⟩
    exact (hupto.constructed _).mp hmem

theorem Logged.mem_constructed {p' : LogProcess} (hlogged : Logged all done s p p')
    (hupto : Upto all done p) (level : Loglevel) :
    level ∈ p'.constructed ↔ (p'.logData level).isSome := by
  have hbefore := hupto.constructed level
  rw [hlogged.constructed]
  by_cases hsame : level = s.level
  · subst hsame
    obtain ⟨stream, hself⟩ := hlogged.built
    rw [hself]
    refine iff_of_true ?_ rfl
    split_ifs with hbuilt
    · exact hbefore.mpr hbuilt
    · exact List.mem_cons_self
  · rw [hlogged.others level hsame, ← hbefore]
    split_ifs
    · rfl
    · simp [hsame]

/-- One statement. -/
theorem Upto.step (hupto : Upto all done p) (hall : all = done ++ s :: rest)
    (hfollows : ∀ t ∈ done.getLast?, Follows all t s)
    (hheader : Fits 0 (headerOf all s)) (htext : Fits 0 s.text) (hlevel : s.level ≠ .fatal) :
    Upto all (done ++ [s]) (log s p) := by
  have hlogged := hupto.logged hall hfollows hheader htext hlevel
  have hmem : s ∈ done ++ [s] := List.mem_append_right _ (List.mem_singleton_self s)
  refine ⟨hlogged.running, fun level hnone ↦ ?_, fun _ _ ↦ hlogged.known hupto hall,
    fun level hlast ↦ ?_, fun t ht ↦ ?_, hlogged.nodup hupto, hlogged.mem_constructed hupto, ?_⟩
  · rw [hlogged.others level (hnone s hmem).symm]
    exact hupto.unknown level fun t ht ↦ hnone t (List.mem_append_left _ ht)
  · have hother : level ≠ s.level := fun hsame ↦ hlast s (by simp) hsame.symm
    rw [pending, hlogged.others level hother]
    exact hupto.quiet_of_ne hfollows hother
  · obtain rfl : s = t := by simpa using ht
    exact hlogged.pending
  · rw [lastText_concat, inOrder_concat, hlogged.output]

/-- Behind `FATAL` nothing is handed over. -/
theorem Upto.output_abort (hupto : Upto all done p) (hall : all = done ++ [s])
    (hfollows : ∀ t ∈ done.getLast?, Follows all t s)
    (hheader : Fits 0 (headerOf all s)) (hlevel : s.level = .fatal)
    (hsilent : shownAll s.text = []) (more : List Statement) :
    (exit (more.foldl (fun p s ↦ log s p) (log s p))).output = inOrder all all := by
  have hget := hupto.getStream_eq hall hfollows hheader
  have haborted : (getStream s p).aborted = true := by
    rw [hget]
    exact decide_eq_true hlevel
  have hlog : log s p = getStream s p := by
    unfold LogProcess.log
    rw [if_neg (by rw [hupto.running]; exact Bool.false_ne_true), if_pos haborted]
  have hwhole : inOrder all all = inOrder all (done ++ [s]) := congrArg (inOrder all) hall
  rw [hlog, log_of_aborted haborted, exit, if_pos haborted, hget, hwhole, inOrder_concat, hsilent,
    List.append_nil]

theorem flatMap_eq_of_nodup {α β : Type*} {l : List α} {f : α → List β} {a : α} (hnodup : l.Nodup)
    (hmem : a ∈ l) (hnone : ∀ b ∈ l, b ≠ a → f b = []) : l.flatMap f = f a := by
  obtain ⟨before, after, rfl⟩ := List.append_of_mem hmem
  have hbefore : before.flatMap f = [] := by
    rw [List.flatMap_eq_nil_iff]
    intro b hb
    refine hnone b (List.mem_append_left _ hb) ?_
    rintro rfl
    exact (List.nodup_append.mp hnodup).2.2 b hb b List.mem_cons_self rfl
  have hafter : after.flatMap f = [] := by
    rw [List.flatMap_eq_nil_iff]
    intro b hb
    refine hnone b (List.mem_append_right _ (List.mem_cons_of_mem _ hb)) ?_
    rintro rfl
    exact (List.nodup_cons.mp (List.nodup_append.mp hnodup).2.1).1 hb
  rw [List.flatMap_append, List.flatMap_cons, hbefore, hafter, List.nil_append, List.append_nil]

/-- The destructors hand over the last text. -/
theorem Upto.output_exit (hupto : Upto all all p) : (exit p).output = inOrder all all := by
  rw [exit, if_neg (by rw [hupto.running]; exact Bool.false_ne_true)]
  dsimp only
  rw [← hupto.output]
  congr 1
  cases hlast : all.getLast? with
  | none =>
    rw [lastText, hlast]
    exact List.flatMap_eq_nil_iff.mpr fun level _ ↦ hupto.quiet level (by simp [hlast])
  | some t =>
    have hmem : t.level ∈ p.constructed := by
      rw [hupto.constructed]
      have hfound : all.find? (fun other ↦ other.level = t.level) ≠ none := by
        intro hnone
        have hnot := List.find?_eq_none.mp hnone t (List.mem_of_getLast? hlast)
        exact hnot (decide_eq_true rfl)
      obtain ⟨first, hfirst⟩ := Option.ne_none_iff_exists'.mp hfound
      obtain ⟨stream, hdata⟩ := hupto.known _ _ hfirst
      rw [hdata]
      rfl
    have hothers : ∀ level ∈ p.constructed, level ≠ t.level → p.pending level = [] := by
      intro level _ hother
      apply hupto.quiet
      intro t' ht'
      cases hlast.symm.trans ht'
      exact hother.symm
    rw [flatMap_eq_of_nodup hupto.nodup hmem hothers, hupto.held t hlast, lastText, hlast]
    rfl

/-- All statements from some point on. -/
theorem Upto.output_eq {statements : List Statement} (hupto : Upto all done p)
    (hall : all = done ++ executed statements) (hmoderate : Moderate all)
    (horderly : Orderly all) :
    (exit (statements.foldl (fun p s ↦ log s p) p)).output = inOrder all all := by
  induction statements generalizing done p with
  | nil =>
    rw [executed, List.append_nil] at hall
    subst hall
    exact hupto.output_exit
  | cons s statements ih =>
    obtain ⟨rest, hexecuted⟩ : ∃ rest, executed (s :: statements) = s :: rest := by
      unfold executed
      split_ifs
      · exact ⟨[], rfl⟩
      · exact ⟨_, rfl⟩
    have hsplit : all = done ++ s :: rest := by rw [hall, hexecuted]
    have hmem : s ∈ all := by
      rw [hsplit]
      exact List.mem_append_right _ List.mem_cons_self
    have hfollows : ∀ t ∈ done.getLast?, Follows all t s := by
      intro t ht
      have hchain : (done ++ s :: rest).IsChain (Follows all) := hsplit ▸ horderly.follows
      exact (List.isChain_append.mp hchain).2.2 t ht s rfl
    rw [List.foldl_cons]
    by_cases hlevel : s.level = .fatal
    · have hlast : all = done ++ [s] := by rw [hall, executed, if_pos hlevel]
      exact hupto.output_abort hlast hfollows (hmoderate s hmem).1 hlevel
        (horderly.fatal s hmem hlevel) statements
    · obtain ⟨hheader, htext⟩ := hmoderate s hmem
      apply ih (hupto.step hsplit hfollows hheader htext hlevel)
      rw [hall, executed, if_neg hlevel, List.append_cons]

end

/-- The log is in the order of the calls, and complete, where each text is followed by a statement
of its level that has room behind it, and nothing is streamed behind `FATAL`. -/
theorem outputOf_eq_of_orderly (statements : List Statement)
    (hmoderate : Moderate (executed statements)) (horderly : Orderly (executed statements)) :
    outputOf statements = inOrder (executed statements) (executed statements) :=
  (upto_new _).output_eq rfl hmoderate horderly

/-- A statement of a test program. -/
def said (level : Loglevel) (words : List Byte) : Statement where
  level := level
  path := text "src/log_test.cc"
  line := ⟨23, by decide, by decide⟩
  oldErrno := ⟨0, by decide, by decide⟩
  message := []
  time := text "20240229 12:00:00"
  microseconds := text ".000000Z "
  text := [.characters words]

theorem outputOf_eq_of_orderly_info :
    outputOf [said .info (text "one"), said .info (text "two")] =
      inOrder [said .info (text "one"), said .info (text "two")]
        [said .info (text "one"), said .info (text "two")] := by
  refine outputOf_eq_of_orderly _ ?_ ⟨?_, ?_⟩
  · unfold Moderate
    decide
  · decide
  · decide

/-- The text of the first statement comes behind that of the second. -/
theorem not_inOrder_two_levels :
    Moderate (executed [said .info (text "one"), said .warn (text "two")]) ∧
      outputOf [said .info (text "one"), said .warn (text "two")] ≠
        inOrder (executed [said .info (text "one"), said .warn (text "two")])
          (executed [said .info (text "one"), said .warn (text "two")]) := by
  constructor
  · unfold Moderate
    decide
  · decide

end LogProcess

end LWebServer
