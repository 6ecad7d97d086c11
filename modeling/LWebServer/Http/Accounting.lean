import LWebServer.Http.BodyLength
import LWebServer.Tool.Accounting

/-!
# The account of a connection

`provide` queues a `Send` for all it has written, on each of its ways to a response. In a run of
responses and `DoAll` calls the `Send` tasks account for the readable bytes.
-/

namespace LWebServer

open WriteLoop Provider

namespace Response

theorem length_pieces_pos (response : Response) (site : Site) (r : HttpRequest)
    (type : List Byte) : 0 < (characters (response.pieces site r type)).length := by
  have hfirst : text "HTTP/" ≠ [] := by decide
  apply List.length_pos_of_ne_nil
  intro hnil
  unfold pieces headPieces at hnil
  rw [List.cons_append, characters_cons] at hnil
  have hpiece := (List.append_eq_nil_iff.mp hnil).1
  simp [hfirst] at hpiece

theorem balanced_attach {response : Response} {a a' : Answering} (hbalanced : a.writeLoop.Balanced)
    (hattach : response.attach a = .ok () a') : a'.writeLoop.Balanced := by
  cases hfile : response.file with
  | none =>
    rw [attach_none hfile] at hattach
    cases hattach
    exact hbalanced
  | some file =>
    rw [attach_some hfile] at hattach
    have hqueued := hbalanced.addSendFile file
    split at hattach
    · rename_i n w hput
      cases hattach
      obtain ⟨bytes, rfl, hfilled⟩ := put_fills hqueued.readSpot_le hput
      have hlength := (put_shows hqueued.readSpot_le hput).length
      refine hqueued.addSend hfilled ?_
      rw [hlength]
      decide
    · cases hattach

/-- All that is written is queued. -/
theorem balanced_send (response : Response) {site : Site} {mem : ℕ → Byte} {a a' : Answering}
    (hbalanced : a.writeLoop.Balanced) (hsend : response.send site mem a = .ok () a') :
    a'.writeLoop.Balanced := by
  cases htype : autoAdapt mem a.request.uri with
  | error e =>
    rw [send_of_error _ htype] at hsend
    cases hsend
  | ok type =>
    rw [send_of_ok _ htype] at hsend
    split at hsend
    · rename_i n w hput
      obtain ⟨bytes, rfl, hfilled⟩ := putAll_fills hbalanced.readSpot_le hput
      have hlength := (putAll_shows hbalanced.readSpot_le hput).1
      refine balanced_attach (hbalanced.addSend hfilled ?_) hsend
      rw [hlength]
      exact response.length_pieces_pos site _ type
    · cases hsend

end Response

namespace REAProvider

theorem balanced_provide {table : HeaderTable} {site : Site} {mem : ℕ → Byte} {a a' : Answering}
    (hbalanced : a.writeLoop.Balanced) (hprovide : provide table site mem a = .ok () a') :
    a'.writeLoop.Balanced := by
  rw [provide_eq] at hprovide
  cases hrespond : respond table site mem a.request with
  | error e =>
    rw [hrespond] at hprovide
    cases hprovide
  | ok response =>
    rw [hrespond] at hprovide
    exact response.balanced_send hbalanced hprovide

/-- The loops that `provide` calls which return and `DoAll` calls without a dead connection lead to.
Each request comes with its own bytes, headers and surroundings. -/
inductive Running : WriteLoop → Prop
  | new (interval length : ℕ) : Running (.new interval length)
  | provided {w : WriteLoop} {a : Answering} (hrunning : Running w) (table : HeaderTable)
      (site : Site) (mem : ℕ → Byte) (request : HttpRequest)
      (hprovide : provide table site mem ⟨request, w⟩ = .ok () a) : Running a.writeLoop
  | done {w : WriteLoop} (hrunning : Running w) (answers : List Accept)
      (halive : Alive (w.facing answers).executedAll) :
      Running (Op.finalState (doAll (w.facing answers)))

theorem Running.balanced {w : WriteLoop} (hrunning : Running w) : w.Balanced := by
  induction hrunning with
  | new interval length => exact balanced_new interval length
  | provided hrunning table site mem request hprovide ih => exact balanced_provide ih hprovide
  | done hrunning answers halive ih =>
    obtain ⟨⟨answer, w', hdo, hbalanced⟩, -⟩ :=
      balanced_doAll (ih.facing answers) halive
    rw [hdo]
    exact hbalanced

/-- The lengths of the `Send` tasks add up to the readable bytes, and `DoAll` returns without having
executed a `Send` that is longer than what is readable. -/
theorem Running.accounts {w : WriteLoop} (hrunning : Running w) :
    dueAll w.que = w.userBuffer.readable ∧ ∀ answers,
      Alive (w.facing answers).executedAll →
        (∃ answer w', doAll (w.facing answers) = .ok answer w') ∧
          ∀ sent ∈ (w.facing answers).executedAll, sent.length ≤ sent.readable := by
  have hbalanced := hrunning.balanced
  refine ⟨hbalanced.due.trans (sizeSub_of_le hbalanced.readSpot_le).symm, fun answers halive ↦ ?_⟩
  obtain ⟨⟨answer, w', hdo, -⟩, hlength⟩ :=
    balanced_doAll (hbalanced.facing answers) halive
  exact ⟨⟨answer, w', hdo⟩, hlength⟩

theorem Running.accounts_plain : ∃ a : Answering, Running a.writeLoop ∧ a.writeLoop.que ≠ [] ∧
    dueAll a.writeLoop.que = a.writeLoop.userBuffer.readable := by
  obtain ⟨a, hprovide⟩ := returns_plain .bare (by decide +kernel)
  have hrunning := Running.provided (.new 0 4048) _ _ _ _ hprovide
  obtain ⟨response, type, showns, rest, tasks, -, -, hdelivered⟩ :=
    delivered_of_provide (Nat.zero_le _) hprovide
  have htasks : tasks ≠ [] := by
    rintro rfl
    have hamount := hdelivered.amount
    have hcrlf : 0 < crlfPiece.characters.length := by decide
    simp only [List.map_nil, List.sum_nil] at hamount
    omega
  refine ⟨a, hrunning, ?_, hrunning.accounts.1⟩
  rw [hdelivered.que]
  exact List.append_ne_nil_of_right_ne_nil _ htasks

end REAProvider

end LWebServer
