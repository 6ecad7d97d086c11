import LWebServer.Library.Schedule
import LWebServer.Tool.Accounting
import LWebServer.Tool.WireOrder

/-!
# What the write loop reports

`DoAll` hands `throughout` to the callback of the loop and starts to count again. `Send` counts all
it has sent so far with each call that the kernel accepts, and `SendFile` counts nothing, so that
the reports and the counter add up to the bytes on the wire as long as a `Send` is accepted in one
call and no file is.
-/

namespace LWebServer.WriteLoop

open Memory Schedule

/-! ## Runs -/

/-- What is done to a write loop: something is buffered, a task is queued, `DoAll` runs while the
kernel gives some answers, or the loop is cleared for the next connection. -/
inductive Act where
  | put (piece : Piece)
  | addTask (task : Task)
  | doAll (answers : List Accept)
  | clear

/-- A call leaves its state behind also where it throws. -/
def act : Act → WriteLoop → WriteLoop
  | .put piece, w => Op.finalState (put piece w)
  | .addTask task, w => { w with que := w.que ++ [task] }
  | .doAll answers, w => Op.finalState (doAll (w.facing answers))
  | .clear, w => w.clear

def step (a : Act) (w : WriteLoop) : Option WriteLoop := some (act a w)

/-- What has been reported and what is going to be reported is what the kernel has accepted. -/
def Tallies (w : WriteLoop) : Prop :=
  w.reports.sum + w.throughout = w.outlet.wire.length

/-! ## Where a turn counts right -/

/-- The kernel accepts nothing of a file. -/
def Refused (ptr : FileReader) : List Accept → Prop
  | .accepts _ :: _ => ptr.offest = ptr.length
  | _ => True

/-- The front task is accepted in one call if it is a `Send`, and not at all if it is a
`SendFile`. -/
def Plain (w : WriteLoop) : Prop :=
  match w.que with
  | [] => True
  | .send length :: _ => Steady length w.outlet.answers
  | .sendReadable :: _ => Steady w.userBuffer.readable w.outlet.answers
  | .sendFile ptr :: _ => Refused ptr w.outlet.answers

/-- Every turn of `DoAll` finds its task plain. -/
def AllPlain : ℕ → WriteLoop → Prop
  | 0, _ => True
  | count + 1, w => Plain w ∧
    match doFirst w with
    | .ok .complete w' => AllPlain count w'.report
    | _ => True

/-- The turns of a `DoAll` are plain. -/
def PlainAct : Act → WriteLoop → Prop
  | .doAll answers, w => AllPlain (w.que.length + 1) (w.facing answers)
  | _, _ => True

/-- So many bytes more are on the wire, and they are counted unless the counter wraps. -/
structure Counts (n : ℕ) (w w' : WriteLoop) : Prop where
  reports : w'.reports = w.reports
  wire : w'.outlet.wire.length = w.outlet.wire.length + n
  throughout : w.throughout + n < 2 ^ 32 → w'.throughout = w.throughout + n

theorem Counts.refl (w : WriteLoop) : Counts 0 w w := ⟨rfl, rfl, fun _ ↦ rfl⟩

/-- A `Send` counts what it sends if it is accepted in one call. -/
theorem counts_send {length : ℕ} {w : WriteLoop} (hsteady : Steady length w.outlet.answers) :
    ∃ n, Counts n w (Op.finalState (send length w)) := by
  rw [send_eq]
  split_ifs
  · exact ⟨0, .refl w⟩
  · exact ⟨0, .refl w⟩
  · have hblock : (load w.userBuffer.buffer w.userBuffer.readSpot length).length = length :=
      length_load _ _ _
    obtain ⟨n, hn, -, hwire, hcount, -⟩ := sendLoop_steady (s := w.starting)
      (hblock.symm ▸ hsteady) rfl
    have hall : (sendLoop (load w.userBuffer.buffer w.userBuffer.readSpot length)
        w.outlet.answers w.starting).outlet.wire.length = w.outlet.wire.length + n := by
      rw [hwire, List.length_append, List.length_take, min_eq_left hn]
      rfl
    unfold settle
    dsimp only
    split_ifs
    · exact ⟨n, rfl, hall, hcount⟩
    · exact ⟨n, rfl, hall, hcount⟩

/-- A `SendFile` counts nothing, which is right if nothing is accepted. -/
theorem counts_sendFile {ptr : FileReader} {w : WriteLoop}
    (hrefused : Refused ptr w.outlet.answers) :
    Counts 0 w (Op.finalState (sendFile ptr w)) := by
  have hwire : (ptr.sendFile w.outlet).2.wire = w.outlet.wire := by
    unfold FileReader.sendFile
    split_ifs with hend
    · rfl
    · cases hanswers : w.outlet.answers with
      | nil => rfl
      | cons answer answers =>
        rw [hanswers] at hrefused
        cases answer with
        | accepts more => exact absurd hrefused hend
        | eagain => rfl
        | reset => rfl
        | failed => rfl
  unfold sendFile
  dsimp only
  split_ifs
  · exact ⟨rfl, congrArg List.length hwire, fun _ ↦ rfl⟩
  · exact ⟨rfl, congrArg List.length hwire, fun _ ↦ rfl⟩

theorem counts_doFirst {w : WriteLoop} (hplain : Plain w) :
    ∃ n, Counts n w (Op.finalState (doFirst w)) := by
  unfold doFirst
  unfold Plain at hplain
  cases hque : w.que with
  | nil => exact ⟨0, .refl w⟩
  | cons task que =>
    rw [hque] at hplain
    cases task with
    | send length =>
      obtain ⟨n, hreports, hwire, hcount⟩ := counts_send (w := { w with que := que }) hplain
      exact ⟨n, hreports, hwire, hcount⟩
    | sendReadable =>
      obtain ⟨n, hreports, hwire, hcount⟩ := counts_send (w := { w with que := que }) hplain
      exact ⟨n, hreports, hwire, hcount⟩
    | sendFile ptr =>
      obtain ⟨hreports, hwire, hcount⟩ := counts_sendFile (w := { w with que := que }) hplain
      exact ⟨0, hreports, hwire, hcount⟩

/-! ## What a run keeps -/

/-- While less than `2 ^ 31` bytes are on the wire, the tally is right and nothing negative has
been reported. -/
def Told (w : WriteLoop) : Prop :=
  w.outlet.wire.length < 2 ^ 31 → 0 ≤ w.reports.sum ∧ Tallies w

theorem Told.counts {n : ℕ} {w w' : WriteLoop} (htold : Told w) (hcounts : Counts n w w') :
    Told w' := by
  intro hsmall
  have hwire := hcounts.wire
  obtain ⟨hnonneg, htallies⟩ := htold (by omega)
  have htallies' : w.reports.sum + w.throughout = w.outlet.wire.length := htallies
  have hcount := hcounts.throughout (by omega)
  unfold Tallies
  rw [hcounts.reports, hcount, hwire]
  exact ⟨hnonneg, by push_cast; omega⟩

theorem Told.report {w : WriteLoop} (htold : Told w) : Told w.report := by
  unfold WriteLoop.report
  split_ifs
  · intro hsmall
    obtain ⟨hnonneg, htallies⟩ := htold hsmall
    have htallies' : w.reports.sum + w.throughout = w.outlet.wire.length := htallies
    have hsmall' : w.outlet.wire.length < 2 ^ 31 := hsmall
    have hreport : Decimal.wrap 32 w.throughout = w.throughout :=
      Decimal.wrap_of_lt (by decide) (by omega)
    unfold Tallies
    simp only [hreport, List.sum_append, List.sum_singleton, Nat.cast_zero, add_zero]
    exact ⟨by omega, htallies'⟩
  · exact htold

theorem told_turns {count : ℕ} {w : WriteLoop} (htold : Told w) (hplain : AllPlain count w) :
    Told (Op.finalState (turns count w)) := by
  induction count generalizing w with
  | zero => exact htold
  | succ count ih =>
    obtain ⟨hfront, hlater⟩ := hplain
    obtain ⟨n, hcounts⟩ := counts_doFirst hfront
    have hnext := htold.counts hcounts
    unfold turns
    cases hfirst : doFirst w with
    | error e w' =>
      rw [hfirst] at hnext
      exact hnext
    | ok answer w' =>
      rw [hfirst] at hnext hlater
      cases answer with
      | imcomplete => exact hnext.report
      | complete => exact ih hnext.report hlater
      | empty => exact hnext.report

theorem told_onBuffer (f : Op UserBuffer ℕ) : Op.Maintains Told (onBuffer f) := by
  intro w htold
  unfold onBuffer
  cases f w.userBuffer with
  | ok n b => exact htold
  | error e b => exact htold

theorem told_put (piece : Piece) : Op.Maintains Told (put piece) := by
  cases piece with
  | block bytes => exact told_onBuffer _
  | formatted characters =>
    exact .bind (told_onBuffer _) fun ret ↦ .bind (told_onBuffer _) fun _ ↦ .pure ret

theorem told_act {a : Act} {w : WriteLoop} (htold : Told w) (hplain : PlainAct a w) :
    Told (act a w) := by
  cases a with
  | put piece => exact told_put piece w htold
  | addTask task => exact htold
  | doAll answers =>
    have hfacing : Told (w.facing answers) := htold
    exact told_turns hfacing hplain
  | clear => exact htold

/-- In a run in which every `Send` is accepted in one call at most and nothing of a file is
accepted, the reports and the counter add up to the bytes on the wire after every call, up to
`2 ^ 31` of them. -/
theorem tallies_along {interval length : ℕ} {acts : List Act}
    (hplain : Meets step (new interval length) PlainAct acts) :
    Along step (new interval length)
      (fun w ↦ w.outlet.wire.length < 2 ^ 31 → Tallies w) acts := by
  have hstart : Told (new interval length) := fun _ ↦ ⟨le_rfl, rfl⟩
  have htold : Along step (new interval length) Told acts := by
    refine along_of_meets hstart (fun a w w' hact htold hstep ↦ ?_) hplain
    obtain rfl := Option.some.inj hstep
    exact told_act htold hact
  exact htold.imp fun w htold hsmall ↦ (htold hsmall).2

/-- A head is refused and then accepted in two reports, and of the file behind the next one nothing
is accepted before the loop is cleared. -/
def deferring : List Act :=
  [.put (.block (text "head")), .addTask (.send 4), .doAll [.eagain], .doAll [.accepts 1, .eagain],
    .doAll [.accepts 3], .put (.block (text "next")), .addTask (.send 4),
    .addTask (.sendFile { content := text "file" }), .doAll [.accepts 3, .eagain], .clear]

theorem tallies_along_deferring : Along step (new 0 64)
    (fun w ↦ w.outlet.wire.length < 2 ^ 31 → Tallies w) deferring := by
  refine tallies_along (meets_cons trivial fun w₁ h₁ ↦ meets_cons trivial fun w₂ h₂ ↦
    meets_cons ?_ fun w₃ h₃ ↦ meets_cons ?_ fun w₄ h₄ ↦ meets_cons ?_ fun w₅ h₅ ↦
    meets_cons trivial fun w₆ h₆ ↦ meets_cons trivial fun w₇ h₇ ↦ meets_cons trivial fun w₈ h₈ ↦
    meets_cons ?_ fun w₉ _ ↦ meets_cons trivial fun w₁₀ _ ↦ meets_nil _)
  · obtain rfl := Option.some.inj h₁
    obtain rfl := Option.some.inj h₂
    exact ⟨trivial, trivial⟩
  · obtain rfl := Option.some.inj h₁
    obtain rfl := Option.some.inj h₂
    obtain rfl := Option.some.inj h₃
    exact ⟨trivial, trivial⟩
  · obtain rfl := Option.some.inj h₁
    obtain rfl := Option.some.inj h₂
    obtain rfl := Option.some.inj h₃
    obtain rfl := Option.some.inj h₄
    exact ⟨trivial, trivial, trivial⟩
  · obtain rfl := Option.some.inj h₁
    obtain rfl := Option.some.inj h₂
    obtain rfl := Option.some.inj h₃
    obtain rfl := Option.some.inj h₄
    obtain rfl := Option.some.inj h₅
    obtain rfl := Option.some.inj h₆
    obtain rfl := Option.some.inj h₇
    obtain rfl := Option.some.inj h₈
    exact ⟨trivial, trivial, trivial⟩

/-- Two bytes are accepted and then two more, which makes six. -/
theorem not_tallies_resumed : ¬ Along step (new 0 64)
    (fun w ↦ w.outlet.wire.length < 2 ^ 31 → Tallies w)
    [.put (.block (text "head")), .addTask (.send 4), .doAll [.accepts 1, .accepts 1]] := by
  intro halong
  have htallies := halong _ _ List.prefix_rfl rfl (by decide)
  unfold Tallies at htallies
  exact absurd htallies (by decide)

end LWebServer.WriteLoop
