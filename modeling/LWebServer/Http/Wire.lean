import LWebServer.Http.Accounting
import Mathlib.Data.List.Forall2

/-!
# The wire of a connection

A connection answers its requests one after another, and in between `DoAll` hands to the kernel what
is in line. As many bytes as the responses have are on the wire or in line at all times. If no
`DoAll` resumes what it has interrupted, they are the responses, one behind the other.
-/

namespace LWebServer

open WriteLoop Provider

/-! ## Counting a turn -/

namespace WriteLoop

variable {w w' : WriteLoop}

/-- The bytes that the kernel has accepted, and those that the queue has still to send. -/
def charged (w : WriteLoop) : ℕ := w.outlet.wire.length + (w.que.map (Task.amount w)).sum

/-- The proper tasks do not ask what is readable. -/
theorem amount_congr (w w' : WriteLoop) {que : List Task} (hproper : ∀ task ∈ que, task.Proper) :
    que.map (Task.amount w) = que.map (Task.amount w') := by
  apply List.map_congr_left
  intro task htask
  cases task with
  | send length => rfl
  | sendReadable => exact (hproper _ htask).elim
  | sendFile ptr => rfl

/-- The loop in `Send` counts what it puts on the wire. -/
theorem length_wire_sendLoop {block : List Byte} {answers : List Accept} {s : Sending}
    (hle : s.sent ≤ block.length) : (sendLoop block answers s).outlet.wire.length + s.sent =
      s.outlet.wire.length + (sendLoop block answers s).sent := by
  induction answers generalizing s with
  | nil => rfl
  | cons answer answers ih =>
    rw [sendLoop.eq_def]
    by_cases hall : s.sent = block.length
    · simp only [if_pos hall]
    · simp only [if_neg hall]
      cases answer with
      | accepts more =>
        have hmore := @ih { s with
          outlet.wire := s.outlet.wire ++ block.take (min (more + 1) (block.length - s.sent))
          sent := s.sent + min (more + 1) (block.length - s.sent)
          throughout := (s.throughout + (s.sent + min (more + 1) (block.length - s.sent))) % 2 ^ 32
          interval := (s.interval + 1) % 2 ^ 32 } (by dsimp only; omega)
        simp only [List.length_append, List.length_take] at hmore ⊢
        omega
      | eagain => rfl
      | reset => rfl
      | failed => rfl

/-- What a `Send` has not sent stays in line. -/
theorem charged_settle {length : ℕ} {s : Sending} {answer : CompleteType}
    (hproper : ∀ task ∈ w.que, task.Proper) (halive : s.faultError = false)
    (hsettle : settle length s w = .ok answer w') :
    w'.charged = s.outlet.wire.length + (length - s.sent) + (w.que.map (Task.amount w)).sum := by
  unfold settle at hsettle
  dsimp only at hsettle
  by_cases hmore : 0 < length - s.sent
  · rw [if_pos ⟨halive, hmore⟩] at hsettle
    cases hsettle
    unfold charged insertSend
    rw [List.map_cons, List.sum_cons, amount_congr _ w hproper]
    exact (Nat.add_assoc _ _ _).symm
  · rw [if_neg fun h ↦ hmore h.2] at hsettle
    cases hsettle
    unfold charged
    rw [amount_congr _ w hproper, Nat.eq_zero_of_not_pos hmore, Nat.add_zero]

theorem charged_send {length : ℕ} {que : List Task} {answer : CompleteType}
    (hbalanced : Balanced w) (hque : w.que = .send length :: que)
    (halive : (w.record length).faultError = false)
    (hsend : send length { w with que := que } = .ok answer w') : w'.charged = w.charged := by
  have hproper : ∀ task ∈ que, task.Proper := fun task htask ↦
    hbalanced.proper task (hque ▸ List.mem_cons_of_mem _ htask)
  rw [send_eq] at hsend
  split_ifs at hsend
  have hsent : (sendLoop (Memory.load w.userBuffer.buffer w.userBuffer.readSpot length)
      w.outlet.answers w.starting).sent ≤ length :=
    (sent_sendLoop_le (Nat.zero_le _)).trans_eq (Memory.length_load _ _ _)
  have hwire : (sendLoop (Memory.load w.userBuffer.buffer w.userBuffer.readSpot length)
      w.outlet.answers w.starting).outlet.wire.length + 0 = w.outlet.wire.length +
        (sendLoop (Memory.load w.userBuffer.buffer w.userBuffer.readSpot length)
          w.outlet.answers w.starting).sent := length_wire_sendLoop (Nat.zero_le _)
  have hsettled := charged_settle hproper halive hsend
  rw [amount_congr { w with que := que } w hproper] at hsettled
  have hcharged : w.charged =
      w.outlet.wire.length + (length + (que.map (Task.amount w)).sum) := by
    rw [charged, hque]
    rfl
  omega

theorem charged_sendFile {ptr : FileReader} {que : List Task} {answer : CompleteType}
    (hbalanced : Balanced w) (hque : w.que = .sendFile ptr :: que)
    (hsend : sendFile ptr { w with que := que } = .ok answer w') : w'.charged = w.charged := by
  have hproper : ∀ task ∈ que, task.Proper := fun task htask ↦
    hbalanced.proper task (hque ▸ List.mem_cons_of_mem _ htask)
  have hcharged : w.charged = w.outlet.wire.length +
      (ptr.length - ptr.offest + (que.map (Task.amount w)).sum) := by
    rw [charged, hque]
    rfl
  -- one `sendfile` moves bytes from the file to the wire
  have hmoved : (ptr.sendFile w.outlet).2.wire.length +
      ((ptr.sendFile w.outlet).1.length - (ptr.sendFile w.outlet).1.offest) =
        w.outlet.wire.length + (ptr.length - ptr.offest) := by
    unfold FileReader.sendFile
    split_ifs with hend
    · rfl
    · cases w.outlet.answers with
      | nil => rfl
      | cons accept answers =>
        cases accept with
        | accepts more =>
          simp only [List.length_append, List.length_take, List.length_drop, FileReader.length]
          omega
        | eagain => rfl
        | reset => rfl
        | failed => rfl
  unfold sendFile at hsend
  dsimp only at hsend
  generalize ptr.sendFile w.outlet = sent at hsend hmoved
  split_ifs at hsend with hend
  · cases hsend
    have hall : sent.1.length = sent.1.offest := by simpa [FileReader.sendEnd] using hend
    have hrest := congrArg List.sum (amount_congr w
      { w with que := que, outlet := sent.2, interval := (w.interval + 1) % 2 ^ 32 } hproper)
    rw [hcharged]
    unfold charged
    dsimp only
    omega
  · cases hsend
    have hrest := congrArg List.sum (amount_congr w (insertSendFile sent.1
      { w with que := que, outlet := sent.2, interval := (w.interval + 1) % 2 ^ 32 }) hproper)
    rw [hcharged]
    unfold charged
    simp only [insertSendFile, addSendFile, List.map_append, List.map_cons, List.map_nil,
      List.sum_append, List.sum_cons, List.sum_nil] at hrest ⊢
    simp only [Task.amount] at hrest ⊢
    omega

/-- A turn neither loses nor adds a byte. -/
theorem charged_doFirst {answer : CompleteType} (hbalanced : Balanced w)
    (halive : ∀ length, w.frontSend = some length → (w.record length).faultError = false)
    (hdo : doFirst w = .ok answer w') : w'.charged = w.charged := by
  unfold doFirst at hdo
  unfold frontSend at halive
  cases hque : w.que with
  | nil =>
    simp only [hque] at hdo
    cases hdo
    rfl
  | cons task que =>
    simp only [hque] at hdo halive
    cases task with
    | send length => exact charged_send hbalanced hque (halive length rfl) hdo
    | sendReadable => exact (hbalanced.proper .sendReadable (hque ▸ List.mem_cons_self)).elim
    | sendFile ptr => exact charged_sendFile hbalanced hque hdo

theorem charged_report (w : WriteLoop) : w.report.charged = w.charged := by
  obtain ⟨hque, hbuffer, houtlet⟩ := w.report_eq
  unfold charged
  rw [hque, houtlet]
  congr 2
  apply List.map_congr_left
  intro task _
  cases task <;> simp only [Task.amount, hbuffer]

theorem charged_turns {count : ℕ} {answer : CompleteType} (hbalanced : Balanced w)
    (halive : Alive (executed count w)) (hdo : turns count w = .ok answer w') :
    w'.charged = w.charged := by
  induction count generalizing w with
  | zero =>
    cases hdo
    rfl
  | succ count ih =>
    have hfirst : ∀ length, w.frontSend = some length → (w.record length).faultError = false := by
      intro length hfront
      refine halive _ (List.mem_append_left _ ?_)
      rw [hfront]
      exact List.mem_singleton_self _
    obtain ⟨⟨answer₁, w₁, hturn, hbalanced₁⟩, -⟩ := balanced_doFirst hbalanced hfirst
    have hcharged := (charged_report w₁).trans (charged_doFirst hbalanced hfirst hturn)
    unfold executed at halive
    unfold turns at hdo
    rw [hturn] at halive hdo
    cases answer₁ with
    | complete =>
      have hlater : Alive (executed count w₁.report) := fun sent hsent ↦
        halive sent (List.mem_append_right _ hsent)
      exact (ih hbalanced₁.report hlater hdo).trans hcharged
    | imcomplete =>
      cases hdo
      exact hcharged
    | empty =>
      cases hdo
      exact hcharged

/-! ## Live connections -/

theorem faultError_sendLoop {block : List Byte} {answers : List Accept}
    (hlive : Accept.reset ∉ answers) (s : Sending) :
    (sendLoop block answers s).faultError = s.faultError := by
  induction answers generalizing s with
  | nil => rfl
  | cons answer answers ih =>
    have hrest : Accept.reset ∉ answers := fun hmem ↦ hlive (List.mem_cons_of_mem _ hmem)
    rw [sendLoop.eq_def]
    by_cases hall : s.sent = block.length
    · simp only [if_pos hall]
    · simp only [if_neg hall]
      cases answer with
      | accepts more => exact ih hrest _
      | eagain => rfl
      | reset => exact absurd List.mem_cons_self hlive
      | failed => rfl

theorem answers_sendFile (ptr : FileReader) (o : Outlet) :
    (ptr.sendFile o).2.answers <:+ o.answers := by
  unfold FileReader.sendFile
  split_ifs
  · exact List.suffix_rfl
  · cases hanswers : o.answers with
    | nil => exact ⟨[], hanswers⟩
    | cons answer answers => cases answer <;> exact List.suffix_cons _ _

/-- A turn takes its answers from the first ones that are left. -/
theorem answers_doFirst {answer : CompleteType} (hdo : doFirst w = .ok answer w') :
    w'.outlet.answers <:+ w.outlet.answers := by
  have hsend {length : ℕ} {v : WriteLoop} (hsend : send length v = .ok answer w') :
      w'.outlet.answers <:+ v.outlet.answers := by
    rw [send_eq] at hsend
    split_ifs at hsend
    unfold settle at hsend
    dsimp only at hsend
    split_ifs at hsend <;> cases hsend <;> exact answers_sendLoop _ _ _
  unfold doFirst at hdo
  cases hque : w.que with
  | nil =>
    simp only [hque] at hdo
    cases hdo
    exact List.suffix_rfl
  | cons task que =>
    simp only [hque] at hdo
    cases task with
    | send length => exact @hsend length { w with que := que } hdo
    | sendReadable => exact @hsend _ { w with que := que } hdo
    | sendFile ptr =>
      have hsuffix := answers_sendFile ptr w.outlet
      simp only [runTask, sendFile] at hdo
      split_ifs at hdo <;> cases hdo <;> exact hsuffix

theorem alive_executed {count : ℕ} (hlive : Accept.reset ∉ w.outlet.answers) :
    Alive (executed count w) := by
  induction count generalizing w with
  | zero => exact fun _ hnone ↦ absurd hnone List.not_mem_nil
  | succ count ih =>
    intro sent hsent
    unfold executed at hsent
    rcases List.mem_append.mp hsent with hfront | hlater
    · obtain ⟨length, -, rfl⟩ := Option.map_eq_some_iff.mp (Option.mem_toList.mp hfront)
      exact faultError_sendLoop hlive w.starting
    · cases hturn : doFirst w with
      | error e w' =>
        rw [hturn] at hlater
        exact absurd hlater List.not_mem_nil
      | ok answer w' =>
        rw [hturn] at hlater
        have hlive' : Accept.reset ∉ w'.report.outlet.answers := by
          rw [w'.report_eq.2.2]
          exact fun hmem ↦ hlive ((answers_doFirst hturn).mem hmem)
        cases answer with
        | complete => exact ih hlive' sent hlater
        | imcomplete => exact absurd hlater List.not_mem_nil
        | empty => exact absurd hlater List.not_mem_nil

end WriteLoop

/-! ## What a response puts in line -/

namespace Response

/-- The bytes of a response: its pieces as they are found in the buffer, and behind them the file
and one more line end. -/
inductive Texts (response : Response) (site : Site) (r : HttpRequest) (type : List Byte) :
    List Byte → Prop
  | plain {showns : List (List Byte)} (hfile : response.file = none)
      (hshowns : List.Forall₂ (fun piece shown ↦ Shown (Piece.characters piece) shown)
        (response.pieces site r type) showns) : Texts response site r type showns.flatten
  | file {showns : List (List Byte)} {file : FileReader} {line : List Byte}
      (hfile : response.file = some file)
      (hshowns : List.Forall₂ (fun piece shown ↦ Shown (Piece.characters piece) shown)
        (response.pieces site r type) showns)
      (hline : Shown crlfPiece.characters line) :
      Texts response site r type (showns.flatten ++ file.content.drop file.offest ++ line)

/-- Pieces are found in as many bytes as they have. -/
theorem length_showns {pieces : List Piece} {showns : List (List Byte)}
    (hshowns : List.Forall₂ (fun piece shown ↦ Shown (Piece.characters piece) shown) pieces
      showns) : showns.flatten.length = (characters pieces).length := by
  induction hshowns with
  | nil => rfl
  | cons hshown _ ih =>
    rw [List.flatten_cons, characters_cons, List.length_append, List.length_append, ih,
      hshown.length_eq]

/-- The number of bytes of a response. -/
def total (response : Response) (site : Site) (r : HttpRequest) (type : List Byte) : ℕ :=
  (characters (headPieces site r response.contentLength type)).length +
    crlfPiece.characters.length + response.bodyLength

theorem Texts.length_eq {response : Response} {site : Site} {r : HttpRequest}
    {type bytes : List Byte} (htexts : response.Texts site r type bytes) :
    bytes.length = response.total site r type := by
  have hpieces : (characters (response.pieces site r type)).length =
      (characters (headPieces site r response.contentLength type)).length +
        crlfPiece.characters.length + (characters response.body).length := by
    rw [pieces, characters_append, characters_cons, List.length_append, List.length_append,
      Nat.add_assoc]
  cases htexts with
  | plain hfile hshowns =>
    rw [length_showns hshowns, hpieces, total, bodyLength, hfile, Nat.add_zero]
  | file hfile hshowns hline =>
    rw [List.length_append, List.length_append, length_showns hshowns, hpieces, hline.length_eq,
      List.length_drop, total, bodyLength, hfile]
    simp only [FileReader.length]
    omega

/-- Printing does not reach the kernel. -/
theorem keeps_outlet_onLoop (piece : Piece) :
    Op.Keeps (fun a ↦ a.writeLoop.outlet) (onLoop (put piece)) := by
  have hbuffer (f : Op UserBuffer ℕ) : Op.Keeps WriteLoop.outlet (onBuffer f) := by
    intro w
    unfold onBuffer
    cases f w.userBuffer <;> rfl
  have hput : Op.Keeps WriteLoop.outlet (put piece) := by
    cases piece with
    | formatted formatted => exact .bind (hbuffer _) fun _ ↦ .bind (hbuffer _) fun _ ↦ .pure _
    | block bytes => exact hbuffer _
  intro a
  have hloop := hput a.writeLoop
  rcases onLoop_cases (put piece) a with ⟨n, w, hcall, hrun⟩ | ⟨e, w, hcall, hrun⟩ <;>
    rw [hcall] at hloop <;> rw [hrun] <;> exact hloop

theorem keeps_outlet_onward (count : ℕ) (pieces : List Piece) :
    Op.Keeps (fun a ↦ a.writeLoop.outlet) (onward count pieces) := by
  induction pieces generalizing count with
  | nil => exact .pure count
  | cons piece pieces ih => exact .bind (keeps_outlet_onLoop piece) fun n ↦ ih (count + n)

theorem keeps_outlet_send (response : Response) (site : Site) (mem : ℕ → Byte) :
    Op.Keeps (fun a ↦ a.writeLoop.outlet) (response.send site mem) := by
  have hattach : Op.Keeps (fun a ↦ a.writeLoop.outlet) response.attach := by
    unfold attach
    cases response.file with
    | none => exact fun _ ↦ rfl
    | some file =>
      exact .bind (fun _ ↦ rfl) fun _ ↦ .bind (keeps_outlet_onLoop crlfPiece) fun _ _ ↦ rfl
  refine .bind (fun _ ↦ rfl) fun _ ↦ .bind .get fun a ↦ .bind ?_ fun _ ↦
    .bind (keeps_outlet_onward _ _) fun _ ↦ .bind (fun _ ↦ rfl) fun _ ↦ hattach
  intro s
  cases autoAdapt mem a.request.uri <;> rfl

/-- A response that is sent goes behind what is in line. -/
theorem send_represents (response : Response) {site : Site} {mem : ℕ → Byte} {a a' : Answering}
    {type : List Byte} {items : List (Task × List Byte)}
    (hrepresents : Represents a.writeLoop items) (htype : autoAdapt mem a.request.uri = .ok type)
    (hfresh : ∀ file, response.file = some file → file.offest = 0)
    (hsend : response.send site mem a = .ok () a') : ∃ bytes items',
      response.Texts site a'.request type bytes ∧ Represents a'.writeLoop items' ∧
        (outbox a'.writeLoop items').total = (outbox a.writeLoop items).total ++ bytes := by
  rw [response.send_of_ok htype] at hsend
  cases hput : putAll (response.pieces site (response.requestOf a.request) type) a.writeLoop with
  | error e w =>
    rw [hput] at hsend
    cases hsend
  | ok n w =>
    rw [hput] at hsend
    dsimp only at hsend
    obtain ⟨hn, showns, hshowns, hfilled⟩ := putAll_shows hrepresents.readSpot_le hput
    rw [← length_showns hshowns] at hn
    obtain ⟨hpushed, htotal⟩ := hrepresents.push hfilled rfl (.send showns.flatten)
    rw [← hn] at hpushed htotal
    cases hfile : response.file with
    | none =>
      rw [attach_none hfile] at hsend
      cases hsend
      exact ⟨_, _, .plain hfile hshowns, hpushed, htotal⟩
    | some file =>
      obtain ⟨content, offest⟩ := file
      obtain rfl : offest = 0 := hfresh _ hfile
      rw [attach_some hfile] at hsend
      dsimp only at hsend
      obtain ⟨hqueued, htotal'⟩ := hpushed.pushFile content
      cases hline : put crlfPiece ((w.addSend n).addSendFile { content }) with
      | error e w₂ =>
        rw [hline] at hsend
        cases hsend
      | ok m w₂ =>
        rw [hline] at hsend
        cases hsend
        obtain ⟨hm, line, hshown, hfilled'⟩ := put_shows hqueued.readSpot_le hline
        rw [← hshown.length_eq] at hm
        obtain ⟨hended, htotal''⟩ := hqueued.push hfilled' rfl (.send line)
        rw [← hm] at hended htotal''
        refine ⟨_, _, .file hfile hshowns hshown, hended, ?_⟩
        calc
          _ = (outbox a.writeLoop items).total ++ showns.flatten ++ content ++ line :=
            htotal''.trans (congrArg (· ++ line) (htotal'.trans (congrArg (· ++ content) htotal)))
          _ = _ := by simp only [List.append_assoc, List.drop_zero]

end Response

/-! ## Conversations -/

/-- A response that has been printed, with the site, the request and the media type it is for. -/
structure Printed where
  response : Response
  site : Site
  request : HttpRequest
  type : List Byte

namespace Printed

/-- The bytes it is found in. -/
def Texts (p : Printed) (bytes : List Byte) : Prop := p.response.Texts p.site p.request p.type bytes

def total (p : Printed) : ℕ := p.response.total p.site p.request p.type

/-- Texts, one behind the other, have the lengths of their responses. -/
theorem length_texts {printed : List Printed} {texts : List (List Byte)}
    (htexts : List.Forall₂ Texts printed texts) :
    texts.flatten.length = (printed.map total).sum := by
  induction htexts with
  | nil => rfl
  | cons htext _ ih =>
    rw [List.flatten_cons, List.length_append, List.map_cons, List.sum_cons, ih]
    exact congrArg (· + _) htext.length_eq

end Printed

namespace REAProvider

/-- The loop of a connection after some requests have been answered and `DoAll` has been called in
between, each time on a loop of the given kind. -/
inductive Conversation (kind : WriteLoop → Prop) : WriteLoop → List Printed → Prop
  | new (interval length : ℕ) : Conversation kind (.new interval length) []
  | provided {w : WriteLoop} {printed : List Printed} {a : Answering} {response : Response}
      {type : List Byte} (hconversation : Conversation kind w printed) (table : HeaderTable)
      (site : Site) (mem : ℕ → Byte) (request : HttpRequest)
      (hprovide : provide table site mem ⟨request, w⟩ = .ok () a)
      (hrespond : respond table site mem request = .ok response)
      (htype : autoAdapt mem request.uri = .ok type) :
      Conversation kind a.writeLoop (printed ++ [⟨response, site, a.request, type⟩])
  | done {w w' : WriteLoop} {printed : List Printed} {answer : CompleteType}
      (hconversation : Conversation kind w printed) (answers : List Accept)
      (hkind : kind (w.facing answers)) (hdo : doAll (w.facing answers) = .ok answer w') :
      Conversation kind w' printed

/-- No `DoAll` gives a task up. -/
def Live (w : WriteLoop) : Prop := Alive w.executedAll

/-- `DoAll` finds its tasks served, and the connection is not reset. -/
def Orderly (w : WriteLoop) : Prop :=
  AllServed (w.que.length + 1) w ∧ Accept.reset ∉ w.outlet.answers

theorem Orderly.live {w : WriteLoop} (horderly : Orderly w) : Live w := alive_executed horderly.2

variable {kind kind' : WriteLoop → Prop} {w : WriteLoop} {printed : List Printed}

theorem Conversation.mono (hkinds : ∀ w, kind w → kind' w)
    (hconversation : Conversation kind w printed) : Conversation kind' w printed := by
  induction hconversation with
  | new interval length => exact .new interval length
  | provided _ table site mem request hprovide hrespond htype ih =>
    exact .provided ih table site mem request hprovide hrespond htype
  | done _ answers hkind hdo ih => exact .done ih answers (hkinds _ hkind) hdo

/-- The three kinds of a response. -/
theorem response_cases {table : HeaderTable} {site : Site} {mem : ℕ → Byte} {r : HttpRequest}
    {response : Response} (hrespond : respond table site mem r = .ok response) :
    response = .error ∨ ∃ content, response = .ofContent content ∨ response = .ofFile content := by
  unfold respond at hrespond
  by_cases hpost : r.method = .hrPost
  · rw [if_pos hpost] at hrespond
    cases hhost : r.getValue table mem (text "Host") with
    | none => simp [hhost] at hrespond
    | some host =>
      cases hcgi : cgiContent site mem host r.uri with
      | error e => simp [hhost, hcgi] at hrespond
      | ok content =>
        simp only [hhost, hcgi, Except.ok.injEq] at hrespond
        split_ifs at hrespond
        · exact .inr ⟨content, .inl hrespond.symm⟩
        · exact .inl hrespond.symm
  · rw [if_neg hpost] at hrespond
    by_cases hgood : r.requestGood = false
    · rw [if_pos hgood] at hrespond
      cases hrespond
      exact .inl rfl
    · rw [if_neg hgood] at hrespond
      cases hhost : r.getValue table mem (text "Host") with
      | none => simp [hhost] at hrespond
      | some host =>
        rcases hrequested : requested site mem host r.uri with e | _ | ⟨content, _ | _⟩ <;>
          simp only [hhost, hrequested, Except.ok.injEq, reduceCtorEq] at hrespond
        · exact .inl hrespond.symm
        · exact .inr ⟨content, .inr hrespond.symm⟩
        · exact .inl hrespond.symm

/-- The file of a response is at its beginning. -/
theorem offest_of_respond {table : HeaderTable} {site : Site} {mem : ℕ → Byte} {r : HttpRequest}
    {response : Response} (hrespond : respond table site mem r = .ok response) (file : FileReader)
    (hfile : response.file = some file) : file.offest = 0 := by
  rcases response_cases hrespond with rfl | ⟨content, rfl | rfl⟩ <;> cases hfile
  rfl

/-- A call of `provide` that returns has sent its response. -/
theorem send_of_provide {table : HeaderTable} {site : Site} {mem : ℕ → Byte} {a a' : Answering}
    {response : Response} (hprovide : provide table site mem a = .ok () a')
    (hrespond : respond table site mem a.request = .ok response) :
    response.send site mem a = .ok () a' := by
  rw [provide_eq, hrespond] at hprovide
  exact hprovide

/-- A response that is sent adds its bytes to what is in line. -/
theorem charged_sent {site : Site} {mem : ℕ → Byte} {a a' : Answering} {response : Response}
    {type : List Byte} (hbalanced : a.writeLoop.Balanced)
    (htype : autoAdapt mem a.request.uri = .ok type)
    (hsend : response.send site mem a = .ok () a') :
    a'.writeLoop.charged = a.writeLoop.charged + response.total site a'.request type := by
  obtain ⟨type', showns, rest, tasks, htype', hdelivered⟩ :=
    response.send_delivers hbalanced.readSpot_le hsend
  obtain rfl : type = type' := Except.ok.inj (htype.symm.trans htype')
  have houtlet := response.keeps_outlet_send site mem a
  rw [hsend] at houtlet
  have hwire : a'.writeLoop.outlet = a.writeLoop.outlet := houtlet
  unfold charged
  rw [hwire, hdelivered.que, List.map_append, List.sum_append, hdelivered.amount,
    amount_congr a'.writeLoop a.writeLoop hbalanced.proper]
  exact (Nat.add_assoc _ _ _).symm

theorem Conversation.running (hconversation : Conversation Live w printed) : Running w := by
  induction hconversation with
  | new interval length => exact .new interval length
  | provided _ table site mem request hprovide _ _ ih =>
    exact .provided ih table site mem request hprovide
  | @done w w' printed answer _ answers hlive hdo ih =>
    have hfinal : Op.finalState (doAll (w.facing answers)) = w' := by
      rw [hdo]
      rfl
    exact hfinal ▸ Running.done ih answers hlive

theorem Conversation.charged_eq (hconversation : Conversation Live w printed) :
    w.charged = (printed.map Printed.total).sum := by
  induction hconversation with
  | new interval length => rfl
  | @provided w printed a response type hconversation table site mem request hprovide hrespond
      htype ih =>
    have hsend := send_of_provide hprovide hrespond
    have hsent : a.writeLoop.charged = w.charged + response.total site a.request type :=
      @charged_sent site mem ⟨request, w⟩ a response type hconversation.running.balanced htype hsend
    rw [hsent, ih, List.map_append, List.sum_append, List.map_singleton, List.sum_singleton,
      Printed.total]
  | done hconversation answers hlive hdo ih =>
    have hbalanced := hconversation.running.balanced
    exact (charged_turns (hbalanced.facing answers) hlive hdo).trans ih

/-- Whatever the kernel accepts, the bytes that are on the wire and those that are in line are as
many as the responses have. -/
theorem Conversation.wire_counted (hconversation : Conversation Live w printed) :
    w.outlet.wire.length + (w.que.map (Task.amount w)).sum = (printed.map Printed.total).sum :=
  hconversation.charged_eq

/-- If the kernel goes on where it has been interrupted only, the wire and what is in line behind it
are the responses in the order of their requests. -/
theorem Conversation.wire_ordered (hconversation : Conversation Orderly w printed) :
    ∃ texts, List.Forall₂ Printed.Texts printed texts ∧ ∃ pending,
      w.outlet.wire ++ pending = texts.flatten ∧
        pending.length = (w.que.map (Task.amount w)).sum := by
  have hlined : ∃ texts items, List.Forall₂ Printed.Texts printed texts ∧ Represents w items ∧
      (outbox w items).total = texts.flatten := by
    induction hconversation with
    | new interval length => exact ⟨[], [], .nil, represents_new interval length, rfl⟩
    | @provided w printed a response type _ table site mem request hprovide hrespond htype ih =>
      obtain ⟨texts, items, htexts, hrepresents, htotal⟩ := ih
      have hsend := send_of_provide hprovide hrespond
      obtain ⟨bytes, items', hbytes, hrepresents', htotal'⟩ :=
        response.send_represents hrepresents htype (offest_of_respond hrespond) hsend
      refine ⟨texts ++ [bytes], items', ?_, hrepresents', ?_⟩
      · exact List.rel_append htexts (.cons hbytes .nil)
      · rw [htotal', htotal, List.flatten_append, List.flatten_singleton]
    | @done w w' printed answer _ answers horderly hdo ih =>
      obtain ⟨texts, items, htexts, hrepresents, htotal⟩ := ih
      have hfacing : Represents (w.facing answers) items :=
        ⟨hrepresents.que, hrepresents.holds, hrepresents.unread, hrepresents.readSpot_le⟩
      have hturns : turns (w.que.length + 1) (w.facing answers) = .ok answer w' := hdo
      have hkeeps := turns_keep hfacing horderly.1 horderly.2
      change KeepsWire _ _ (turns (w.que.length + 1) (w.facing answers)) at hkeeps
      rw [hturns] at hkeeps
      obtain ⟨items', hrepresents', htotal'⟩ := hkeeps
      exact ⟨texts, items', htexts, hrepresents', htotal'.trans htotal⟩
  obtain ⟨texts, items, htexts, -, htotal⟩ := hlined
  refine ⟨texts, htexts, (items.map Prod.snd).flatten, htotal, ?_⟩
  have hcharged := (hconversation.mono fun _ ↦ Orderly.live).charged_eq
  rw [← Printed.length_texts htexts, ← htotal] at hcharged
  simp only [charged, Outbox.total, outbox, List.length_append] at hcharged
  exact (Nat.add_left_cancel hcharged).symm

/-- The first task is a `Send`, and it is cut off after one byte. -/
def cutOff (w : WriteLoop) : Bool :=
  match w.que, doFirst (w.facing [.accepts 0]) with
  | .send _ :: _, .ok .imcomplete w' => w'.outlet.wire.length == 1
  | _, _ => false

/-- An index page that has been asked for, and a `DoAll` of which the kernel accepts one byte. -/
theorem conversation_indexPage : ∃ w p, Conversation Orderly w [p] ∧ w.outlet.wire.length = 1 := by
  obtain ⟨a, hprovide⟩ := returns_plain indexSite (by decide +kernel)
  obtain ⟨response, type, -, -, -, hrespond, htype, -⟩ :=
    delivered_of_provide (Nat.zero_le _) hprovide
  have hconversation := @Conversation.provided Orderly _ _ _ _ _ (.new 0 4048) _ _ _ _ hprovide
    hrespond htype
  have hfirst : cutOff (Op.finalState (provide .sample indexSite plainMemory
      ⟨plainRequest, .new 0 4048⟩)).writeLoop = true := by
    decide +kernel
  rw [hprovide] at hfirst
  change cutOff a.writeLoop = true at hfirst
  unfold cutOff at hfirst
  split at hfirst
  · rename_i length que w hque hturn
    have horderly : Orderly (a.writeLoop.facing [.accepts 0]) := by
      refine ⟨⟨?_, ?_⟩, by simp [facing]⟩
      · unfold Served facing
        simp [hque, Steady]
      · rw [hturn]
        trivial
    have hdo : doAll (a.writeLoop.facing [.accepts 0]) = .ok .imcomplete w.report := by
      unfold doAll turns
      rw [hturn]
    refine ⟨w.report, _, .done hconversation _ horderly hdo, ?_⟩
    rw [w.report_eq.2.2]
    simpa using hfirst
  · cases hfirst

theorem Conversation.wire_counted_indexPage : ∃ w p, Conversation Live w [p] ∧
    w.outlet.wire.length = 1 ∧
      w.outlet.wire.length + (w.que.map (Task.amount w)).sum = ([p].map Printed.total).sum := by
  obtain ⟨w, p, hconversation, hwire⟩ := conversation_indexPage
  have hlive := hconversation.mono fun _ ↦ Orderly.live
  exact ⟨w, p, hlive, hwire, hlive.wire_counted⟩

theorem Conversation.wire_ordered_indexPage : ∃ w p, Conversation Orderly w [p] ∧
    w.outlet.wire.length = 1 ∧ ∃ texts, List.Forall₂ Printed.Texts [p] texts ∧ ∃ pending,
      w.outlet.wire ++ pending = texts.flatten ∧
        pending.length = (w.que.map (Task.amount w)).sum := by
  obtain ⟨w, p, hconversation, hwire⟩ := conversation_indexPage
  exact ⟨w, p, hconversation, hwire, hconversation.wire_ordered⟩

end REAProvider

end LWebServer
