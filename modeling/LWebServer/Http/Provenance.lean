import LWebServer.Http.Wire
import LWebServer.Tool.Provenance

/-!
# What responses supply

A response supplies the write loop with its pieces, and with its file. Where there is no room for a
piece, the pieces in front of it have been put all the same.
-/

namespace LWebServer

open WriteLoop Provider

namespace Response

/-- All pieces of a response, in the order in which they are printed. -/
def allPieces (response : Response) (site : Site) (r : HttpRequest) (type : List Byte) :
    List Piece :=
  response.pieces site r type ++ response.file.toList.map fun _ ↦ crlfPiece

/-- The bytes that have been put for a response: those of its pieces, up to one for which there has
been no room. -/
def Begun (response : Response) (site : Site) (r : HttpRequest) (type bytes : List Byte) : Prop :=
  ∃ front showns, front <+: response.allPieces site r type ∧
    List.Forall₂ (fun piece shown ↦ Shown (Piece.characters piece) shown) front showns ∧
      bytes = showns.flatten

/-- The content of the file of a response. -/
def contents (response : Response) : List (List Byte) := response.file.toList.map FileReader.content

variable {response : Response} {site : Site} {mem : ℕ → Byte} {a : Answering}
  {type before text : List Byte} {files : List (List Byte)} {excerpts : List (Excerpt Source)}

/-- The tasks behind the first one supply the file and the last line. -/
theorem supplied_attach {showns : List (List Byte)} {r : HttpRequest}
    (hoffest : ∀ file, response.file = some file → file.offest = 0)
    (hsupplied : Supplied before (text ++ showns.flatten) files excerpts a.writeLoop)
    (hshowns : List.Forall₂ (fun piece shown ↦ Shown (Piece.characters piece) shown)
      (response.pieces site r type) showns) :
    ∃ bytes, response.Begun site r type bytes ∧
      Supplied before (text ++ bytes) (files ++ response.contents) excerpts
        (Op.finalState (response.attach a)).writeLoop := by
  unfold Begun allPieces contents
  cases hfile : response.file with
  | none =>
    rw [attach_none hfile]
    simp only [Option.toList_none, List.map_nil, List.append_nil]
    exact ⟨_, ⟨_, showns, List.prefix_rfl, hshowns, rfl⟩, hsupplied⟩
  | some file =>
    have hqueued := hsupplied.addSendFile (hoffest file hfile)
    rw [attach_some hfile]
    simp only [Option.toList_some, List.map_cons, List.map_nil]
    cases hput : put crlfPiece (a.writeLoop.addSendFile file) with
    | ok n w =>
      obtain ⟨rfl, line, hline, hfilled⟩ := put_shows hqueued.readSpot_le hput
      refine ⟨_, ⟨_, showns ++ [line], List.prefix_rfl, ?_, rfl⟩, ?_⟩
      · exact List.rel_append hshowns (.cons hline .nil)
      · have hpos : 0 < line.length := hline.length_eq ▸ by decide
        have hsent := hqueued.addSend hfilled hpos
        rw [hline.length_eq] at hsent
        rwa [List.flatten_append, List.flatten_singleton, ← List.append_assoc]
    | error e w =>
      have hsent := hqueued.filled (put_error_fills hqueued.readSpot_le hput)
      rw [List.append_nil] at hsent
      exact ⟨_, ⟨_, showns, List.prefix_append _ _, hshowns, rfl⟩, hsent⟩

/-- A response that is being sent supplies bytes of its own, whether this succeeds or not. -/
theorem supplied_sent (hoffest : ∀ file, response.file = some file → file.offest = 0)
    (hsupplied : Supplied before text files excerpts a.writeLoop)
    (htype : autoAdapt mem a.request.uri = .ok type) :
    ∃ bytes, response.Begun site (response.requestOf a.request) type bytes ∧
      Supplied before (text ++ bytes) (files ++ response.contents) excerpts
        (Op.finalState (response.send site mem a)).writeLoop := by
  rw [response.send_of_ok htype]
  cases hput : putAll (response.pieces site (response.requestOf a.request) type) a.writeLoop with
  | ok n w =>
    obtain ⟨rfl, showns, hshowns, hfilled⟩ := putAll_shows hsupplied.readSpot_le hput
    have hpos := response.length_pieces_pos site (response.requestOf a.request) type
    rw [← length_showns hshowns] at hpos ⊢
    exact supplied_attach hoffest (hsupplied.addSend hfilled hpos) hshowns
  | error e w =>
    obtain ⟨front, showns, hfront, hshowns, hfilled⟩ :=
      putAll_error_shows hsupplied.readSpot_le hput
    refine ⟨_, ⟨front, showns, hfront.trans (List.prefix_append _ _), hshowns, rfl⟩, ?_⟩
    exact (hsupplied.filled hfilled).files_append _

end Response

namespace Printed

/-- The bytes that have been put for it. -/
def Begun (p : Printed) (bytes : List Byte) : Prop := p.response.Begun p.site p.request p.type bytes

def contents (p : Printed) : List (List Byte) := p.response.contents

end Printed

namespace REAProvider

/-- The response that `provide` prints, with the request as it is left; there is none if an
exception comes first. -/
def printing (table : HeaderTable) (site : Site) (mem : ℕ → Byte) (r : HttpRequest) :
    List Printed :=
  match respond table site mem r, autoAdapt mem r.uri with
  | .ok response, .ok type => [⟨response, site, response.requestOf r, type⟩]
  | _, _ => []

variable {table : HeaderTable} {site : Site} {mem : ℕ → Byte} {a : Answering}
  {before text : List Byte} {files : List (List Byte)} {excerpts : List (Excerpt Source)}

/-- `provide` supplies bytes of the response that it prints, whether it returns or throws. -/
theorem supplied_provide (table : HeaderTable) (site : Site) (mem : ℕ → Byte)
    (hsupplied : Supplied before text files excerpts a.writeLoop) :
    ∃ texts, List.Forall₂ Printed.Begun (printing table site mem a.request) texts ∧
      Supplied before (text ++ texts.flatten)
        (files ++ (printing table site mem a.request).flatMap Printed.contents) excerpts
        (Op.finalState (provide table site mem a)).writeLoop := by
  have hnone : ∃ texts, List.Forall₂ Printed.Begun [] texts ∧
      Supplied before (text ++ texts.flatten)
        (files ++ ([] : List Printed).flatMap Printed.contents) excerpts a.writeLoop := by
    refine ⟨[], .nil, ?_⟩
    simpa using hsupplied
  rw [provide_eq]
  unfold printing
  cases hrespond : respond table site mem a.request with
  | error e => exact hnone
  | ok response =>
    cases htype : autoAdapt mem a.request.uri with
    | error e =>
      have herror : response.send site mem a =
          .error e { a with request := response.requestOf a.request } :=
        response.send_of_error htype
      dsimp only
      rw [herror]
      exact hnone
    | ok type =>
      obtain ⟨bytes, hbegun, hsent⟩ :=
        Response.supplied_sent (offest_of_respond hrespond) hsupplied htype
      refine ⟨[bytes], .cons hbegun .nil, ?_⟩
      simpa [Printed.contents] using hsent

end REAProvider

/-! ## Responses in order -/

namespace WriteLoop

/-- Of these bytes the first ones have been sent, and the tasks stand for the others. -/
def Sends (w : WriteLoop) (bytes : List Byte) : Prop :=
  ∃ items, Represents w items ∧ (outbox w items).total = bytes

/-- What tasks stand for has as many bytes as they have still to send. -/
theorem Represents.length_pending {w : WriteLoop} {items : List (Task × List Byte)}
    (hrepresents : Represents w items) (hproper : ∀ task ∈ w.que, task.Proper) :
    (items.map Prod.snd).flatten.length = (w.que.map (Task.amount w)).sum := by
  have hholds := hrepresents.holds
  rw [hrepresents.que] at hproper ⊢
  clear hrepresents
  induction items with
  | nil => rfl
  | cons item items ih =>
    obtain ⟨task, bytes⟩ := item
    rw [List.forall_mem_cons] at hholds
    rw [List.map_cons, List.forall_mem_cons] at hproper
    have hrest := ih hproper.2 hholds.2
    have hfirst : bytes.length = task.amount w := by
      have htask : Holds task bytes := hholds.1
      have hproper' : task.Proper := hproper.1
      cases htask with
      | send bytes => rfl
      | sendReadable bytes => exact hproper'.elim
      | sendFile ptr hle => exact List.length_drop
    simp only [List.map_cons, List.flatten_cons, List.length_append, List.sum_cons]
    rw [hfirst, hrest]

end WriteLoop

/-- The response that `provide` has printed goes behind the others. -/
theorem REAProvider.sends_provide {table : HeaderTable} {site : Site} {mem : ℕ → Byte}
    {a a' : Answering} {bytes : List Byte} (hsends : a.writeLoop.Sends bytes)
    (hprovide : provide table site mem a = .ok () a') :
    ∃ texts, List.Forall₂ Printed.Texts (printing table site mem a.request) texts ∧
      a'.writeLoop.Sends (bytes ++ texts.flatten) := by
  obtain ⟨items, hrepresents, rfl⟩ := hsends
  rw [provide_eq] at hprovide
  unfold printing
  cases hrespond : respond table site mem a.request with
  | error e =>
    rw [hrespond] at hprovide
    cases hprovide
  | ok response =>
    rw [hrespond] at hprovide
    have hsend : response.send site mem a = .ok () a' := hprovide
    cases htype : autoAdapt mem a.request.uri with
    | error e =>
      rw [response.send_of_error htype] at hsend
      cases hsend
    | ok type =>
      obtain ⟨_, _, _, _, -, hdelivered⟩ := response.send_delivers hrepresents.readSpot_le hsend
      obtain ⟨shown, items', hshown, hrepresents', htotal⟩ :=
        response.send_represents hrepresents htype (offest_of_respond hrespond) hsend
      rw [hdelivered.request] at hshown
      refine ⟨[shown], .cons hshown .nil, items', hrepresents', ?_⟩
      rw [htotal, List.flatten_singleton]

end LWebServer
