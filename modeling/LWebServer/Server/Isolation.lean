import LWebServer.Server.Pieces

/-!
# Headers of earlier requests

`Again_Parser` resets the record of the parser and not the header map, so the entries of a request
stand in the map of the next one. `Get_Value` gives the request's own values as long as no such
entry stands for anything else.
-/

namespace LWebServer

namespace Stored

variable {table : HeaderTable} {size limit : ℕ} {stale : List HeaderEntry}
  {known : List (List Byte)} {mem : ℕ → Byte} {lines : List (List Byte × List Byte)}
  {r : HttpRequest}

/-- The lines of a head have entries under their names, old or new. -/
theorem names_subset (hstored : Stored table size stale known mem limit r.headerValue lines)
    (hknown : known ⊆ namesIn mem stale) : lines.map Prod.fst ⊆ namesIn mem r.headerValue := by
  obtain ⟨fresh, hentries, -, -, hcovers, -⟩ := hstored
  intro name hname
  obtain ⟨line, hline, rfl⟩ := List.mem_map.mp hname
  rw [namesIn, hentries, contents, List.map_append, ← contents, ← contents, List.map_append,
    List.mem_append]
  exact (hcovers line hline).symm.imp_left fun h ↦ hknown h

theorem contents_subset (hstored : Stored table size stale known mem limit r.headerValue lines) :
    contents mem r.headerValue ⊆ lines ↔ contents mem stale ⊆ lines := by
  obtain ⟨fresh, hentries, -, hkept, -⟩ := hstored
  rw [hentries, contents, List.map_append, ← contents, ← contents, List.append_subset]
  exact and_iff_left hkept.subset

end Stored

/-- All but the URI. -/
def Sight.headers : Sight := ⟨False, True, True, True, id⟩

namespace HttpParser.Finished

variable {table : HeaderTable} {stale : List HeaderEntry} {h : RequestHead} {t : List Byte}
  {p : HttpParser}

/-- The values of a head are recalled, whatever the order of iteration, exactly if all old entries
stand for lines of it. -/
theorem recalls_iff (hfinished : Finished .headers table stale h t p)
    (hdistinct : (h.headers.map Prod.fst).Nodup) :
    (∀ order order_perm, p.requestResult.Recalls
      { table with order := order, order_perm := order_perm } p.userBuffer.buffer h.headers) ↔
      contents p.userBuffer.buffer stale ⊆ h.headers := by
  obtain ⟨known, setKa, c, hread, hsees, -, hknown⟩ := hfinished.views
  have hstored := hsees.stored trivial
  have hwhole := hfinished.between.whole trivial
  rw [hread.headers] at hstored
  rw [LWebServer.recalls_iff table (fun entry hentry ↦ hwhole entry hentry _) hdistinct,
    ← hstored.contents_subset]
  exact and_iff_left (hstored.names_subset (hknown trivial))

end HttpParser.Finished

namespace Member

/-- When `Provide` is called for a head of the stream whose names are distinct, `Get_Value` gives
the values of the head and nothing else. -/
def Isolated (table : HeaderTable) (log : Log) (a : Arrival) (m : Member) : Prop :=
  ∀ m₁, scan table a m = .ok () m₁ → m₁.httpParser.finished = true →
    ∃ h : RequestHead, h.Accepted ∧
      h.encode <+: (log.seen ++ streamed a.received).drop log.begun ∧
      ((h.headers.map Prod.fst).Nodup → m₁.httpParser.requestResult.Recalls table
        m₁.httpParser.userBuffer.buffer h.headers)

/-- Nothing is shifted once the head that is being read has a header line. -/
def Anchored (log : Log) (a : Arrival) (m : Member) : Prop :=
  m.Midway → streamed a.received ≠ [] →
    m.httpParser.userBuffer.readSpot < m.httpParser.userBuffer.bufferSize / 2 ∨
      m.httpParser.parserResult.header = none ∧
        m.httpParser.requestResult.headerValue = log.left

/-- With the call that completes a head, every entry of an earlier one stands for a line of this
head in the memory that it is read from; while the head has come in pieces, no such entry has lost
the name that it had. -/
structure Unhaunted (log : Log) (a : Arrival) (m : Member) : Prop where
  own : ∀ (m₀ : Member) (h : RequestHead), receive a m = .ok () m₀ → h.Accepted →
    (h.headers.map Prod.fst).Nodup → h.encode <+: log.heard a m₀ →
    contents m₀.httpParser.userBuffer.buffer log.left ⊆ h.headers
  kept : m.Midway → ∀ m₀, receive a m = .ok () m₀ →
    namesIn m.httpParser.userBuffer.buffer log.left ⊆
      namesIn m₀.httpParser.userBuffer.buffer log.left

variable {table : HeaderTable} {log : Log} {a : Arrival} {m m₀ m₁ : Member}

theorem Unhaunted.undisturbed (hunhaunted : Unhaunted log a m) (hanchored : Anchored log a m)
    (hmidway : m.Midway) : Undisturbed .headers log.left a m := by
  refine ⟨fun hsome ↦ ?_, fun _ ↦ hunhaunted.kept hmidway⟩
  apply (hanchored hmidway hsome).imp_right
  rintro ⟨hnone, hleft⟩
  exact ⟨fun h ↦ absurd h id, fun _ ↦ hnone, fun _ ↦ hleft⟩

/-- One call. -/
theorem isolated_of_logged (hlogged : Logged .headers table log m) (hobeys : Obeys a m)
    (hspared : Spared log a m) (hanchored : Anchored log a m) (hunhaunted : Unhaunted log a m) :
    Isolated table log a m := by
  intro m₁ hscan hfinished
  obtain ⟨m₀, h, hreceive, hfinished', hbehind⟩ := hlogged.finished trivial hobeys hspared
    (hunhaunted.undisturbed hanchored) hscan hfinished
  refine ⟨h, hfinished'.accepted, hfinished'.head.trans (log.heard_stream a m₀), fun hdistinct ↦ ?_⟩
  have hown := hunhaunted.own m₀ h hreceive hfinished'.accepted hdistinct hfinished'.head
  rw [← hbehind.buffer_eq] at hown
  exact (hfinished'.recalls_iff hdistinct).mpr hown table.order table.order_perm

/-- On every stream and however it is delivered, `Get_Value` gives the request's own values as long
as no entry of an earlier request stands for anything else. -/
theorem isolated_of_unhaunted {arrivals : List Arrival} (fd : ℕ) (memory : HttpRequest)
    (interval : ℕ)
    (hobeys : AlongReads table (fun _ ↦ Obeys) {} arrivals (new fd memory interval))
    (hspared : AlongReads table Spared {} arrivals (new fd memory interval))
    (hanchored : AlongReads table Anchored {} arrivals (new fd memory interval))
    (hunhaunted : AlongReads table Unhaunted {} arrivals (new fd memory interval)) :
    AlongReads table (Isolated table) {} arrivals (new fd memory interval) := by
  apply alongReads_of_logged .headers trivial _ _ fd memory interval hobeys hspared
    (hanchored.and hunhaunted)
  · exact fun log a m h _ ↦ h.2.undisturbed h.1
  · exact fun log a m hlogged hobeys hspared h ↦ isolated_of_logged hlogged hobeys hspared h.1 h.2

/-- The entry that a request with `Host: a` has left stands for the `Host` line of this one. -/
def Recalled (left : List HeaderEntry) (m₀ : Member) : Prop :=
  contents m₀.httpParser.userBuffer.buffer left = [(text "Host", text "a")]

theorem unhaunted_empty (hleft : log.left = []) (a : Arrival) (m : Member) : Unhaunted log a m := by
  constructor
  · intro m₀ h _ _ _ _
    rw [hleft]
    exact List.nil_subset _
  · intro _ m₀ _
    rw [hleft]
    exact List.nil_subset _

/-- Where the bytes that are parsed go on as `plainHead` does, what is recalled is the request's. -/
theorem unhaunted_of_recalled (hhead : ∀ m₀, receive a m = .ok () m₀ →
      log.heard a m₀ <+: HttpParser.plainHead.encode)
    (hleft : ∀ m₀, receive a m = .ok () m₀ → Recalled log.left m₀)
    (hbefore : m.Midway → Recalled log.left m) : Unhaunted log a m := by
  constructor
  case own =>
    intro m₀ h hreceive haccepted _ hinside
    have hread := Scan.headRead_of_prefix haccepted (hinside.trans (hhead m₀ hreceive)) .keepAlive
      .hpfOK
    have hplain := Scan.headRead_scan HttpParser.plainHead_wellFormed.accepted .keepAlive .hpfOK
    have hsame : h.headers = HttpParser.plainHead.headers := hread.headers.symm.trans hplain.headers
    rw [hleft m₀ hreceive, hsame]
    exact List.Subset.refl _
  case kept =>
    intro hmidway m₀ hreceive
    rw [namesIn, namesIn, hbefore hmidway, hleft m₀ hreceive]
    exact List.Subset.refl _

/-- The start line and two bytes of the `Host` line. -/
def hostStart : Arrival := inOnePiece (HttpParser.plainHead.encode.take 18)

def hostRest : Arrival := inOnePiece (HttpParser.plainHead.encode.drop 18)

/-- A request, the same request once more in two pieces, and in another run a request that comes
with as many bytes as fill the buffer. -/
theorem isolated_of_unhaunted_repeated :
    AlongReads .sample (Isolated .sample) {}
        [inOnePiece HttpParser.plainHead.encode, hostStart, hostRest] (new 5 .zero 0) ∧
      AlongReads .sample (Isolated .sample) {} [inOnePiece brimful] (new 5 .zero 0) := by
  have htest : Op.returning (fun _ m' ↦
        Op.returning (fun _ m₀ ↦ decide (contents m₀.httpParser.userBuffer.buffer
            m'.httpParser.requestResult.headerValue = [(text "Host", text "a")]))
          (receive hostStart m') &&
        Op.returning (fun _ m'' ↦
          decide (contents m''.httpParser.userBuffer.buffer
            m'.httpParser.requestResult.headerValue = [(text "Host", text "a")]) &&
          Op.returning (fun _ m₀ ↦ decide (contents m₀.httpParser.userBuffer.buffer
              m'.httpParser.requestResult.headerValue = [(text "Host", text "a")]))
            (receive hostRest m''))
          (doRead .sample hostStart m'))
      (doRead .sample (inOnePiece HttpParser.plainHead.encode) (new 5 .zero 0)) = true := by
    decide +kernel
  have haccepted := HttpParser.plainHead_wellFormed.accepted
  have hrests := rests_new .sample 5 .zero 0
  have hrun : AlongReads .sample (fun log a m ↦ (Obeys a m ∧ Spared log a m) ∧
      Anchored log a m ∧ Unhaunted log a m) {}
      [inOnePiece HttpParser.plainHead.encode, hostStart, hostRest] (new 5 .zero 0) := by
    refine ⟨⟨⟨hrests.obeys (by decide) (by decide), hrests.spared (by decide) _⟩,
      fun _ _ ↦ .inl (by decide), unhaunted_empty rfl _ _⟩, fun m' hread ↦ ?_⟩
    rw [hread] at htest
    obtain ⟨hfirst, htest⟩ := Bool.and_eq_true_iff.mp htest
    obtain ⟨hprovides, hbetween, hrests'⟩ := hrests.whole haccepted (by decide) (by decide)
      (fun _ ↦ .inl (by decide)) (by decide) hread
    rw [Log.next_of_provides hprovides] at hrests' ⊢
    refine ⟨⟨⟨hrests'.obeys (by decide) (by decide), hrests'.spared (by decide) _⟩,
      fun hmidway ↦ absurd hmidway hbetween, ?_⟩, fun m'' hread' ↦ ?_⟩
    · apply unhaunted_of_recalled
      · intro m₀ hreceive
        have hlanded := hrests'.landed (by decide) hreceive
        rw [hostStart, hrests'.heard (congrArg List.length hlanded.unread)]
        exact List.take_prefix _ _
      · intro m₀ hreceive
        rw [hreceive] at hfirst
        have hrecalled := of_decide_eq_true hfirst
        exact hrecalled
      · exact fun hmidway ↦ absurd hmidway hbetween
    rw [hread'] at htest
    obtain ⟨hsecond, hthird⟩ := Bool.and_eq_true_iff.mp htest
    obtain ⟨hprovides', hrests''⟩ := hrests'.within haccepted (by decide) (by decide)
      (fun hmidway ↦ absurd hmidway hbetween) (by decide) (by decide) hread'
    unfold hostStart
    rw [Log.next_of_unfinished hprovides'] at hrests'' ⊢
    refine ⟨⟨⟨hrests''.obeys (by decide) (by decide), hrests''.spared (by decide) _⟩,
      fun _ _ ↦ .inl ?_, ?_⟩, fun _ _ ↦ trivial⟩
    · rw [hrests''.readSpot, hrests''.bufferSize]
      decide
    apply unhaunted_of_recalled
    · intro m₀ hreceive
      have hlanded := hrests''.landed (by decide) hreceive
      rw [hostRest, hrests''.heard (congrArg List.length hlanded.unread)]
      decide
    · intro m₀ hreceive
      rw [hreceive] at hthird
      have hrecalled := of_decide_eq_true hthird
      exact hrecalled
    · have hrecalled := of_decide_eq_true hsecond
      exact fun _ ↦ hrecalled
  constructor
  · exact isolated_of_unhaunted 5 .zero 0 (hrun.imp fun _ _ _ h ↦ h.1.1)
      (hrun.imp fun _ _ _ h ↦ h.1.2) (hrun.imp fun _ _ _ h ↦ h.2.1) (hrun.imp fun _ _ _ h ↦ h.2.2)
  · exact isolated_of_unhaunted 5 .zero 0 ⟨spared_brimful.1, fun _ _ ↦ trivial⟩
      ⟨spared_brimful.2, fun _ _ ↦ trivial⟩ ⟨fun _ _ ↦ .inl (by decide), fun _ _ ↦ trivial⟩
      ⟨unhaunted_empty rfl _ _, fun _ _ ↦ trivial⟩

/-- The `Host` of a request is found in the next one, which has none. -/
theorem not_isolated_bareHead :
    AlongReads .sample (fun _ ↦ Obeys) {}
        [inOnePiece HttpParser.plainHead.encode, inOnePiece bareHead.encode] (new 5 .zero 0) ∧
      ¬ AlongReads .sample (Isolated .sample) {}
        [inOnePiece HttpParser.plainHead.encode, inOnePiece bareHead.encode] (new 5 .zero 0) := by
  have hprovides : provides .sample (inOnePiece HttpParser.plainHead.encode) (new 5 .zero 0) =
      true := by
    decide +kernel
  have htaken : taken .sample (inOnePiece HttpParser.plainHead.encode) (new 5 .zero 0) =
      HttpParser.plainHead.encode.length := by
    decide +kernel
  have hrun : Op.returning (fun _ m' ↦
        decide (bareHead.encode.length ≤ m'.httpParser.userBuffer.writeable) &&
          Op.returning (fun _ m₁ ↦ m₁.httpParser.finished &&
            (m₁.httpParser.requestResult.getValue .sample m₁.httpParser.userBuffer.buffer
              (text "Host")).isSome) (scan .sample (inOnePiece bareHead.encode) m'))
      (doRead .sample (inOnePiece HttpParser.plainHead.encode) (new 5 .zero 0)) = true := by
    decide +kernel
  obtain ⟨_, m', hread, hrun⟩ := Op.of_returning hrun
  obtain ⟨hroom, hrun⟩ := Bool.and_eq_true_iff.mp hrun
  have hobeys : Obeys (inOnePiece bareHead.encode) m' :=
    obeys_inOnePiece (by decide) (of_decide_eq_true hroom)
  refine ⟨⟨obeys_inOnePiece (by decide) (by decide), fun m'' hread' ↦ ?_⟩, ?_⟩
  · rw [hread] at hread'
    cases hread'
    exact ⟨hobeys, fun _ _ ↦ trivial⟩
  rintro ⟨-, hrest⟩
  have hisolated := (hrest m' hread).1
  obtain ⟨_, m₁, hscan, hrun⟩ := Op.of_returning hrun
  obtain ⟨hfinished', hhost⟩ := Bool.and_eq_true_iff.mp hrun
  obtain ⟨h, haccepted, hhead, hrecalls⟩ := hisolated m₁ hscan hfinished'
  rw [Log.next_of_provides hprovides, htaken] at hhead
  dsimp only at hhead
  rw [streamed_inOnePiece, streamed_inOnePiece, List.nil_append, Nat.zero_add,
    List.drop_left] at hhead
  have hencode := encode_eq_of_prefix haccepted bareHead_accepted hhead (List.prefix_refl _)
  obtain ⟨-, -, -, -, hlines⟩ := RequestHead.encode_inj hencode
  have hnone : h.headers = [] := by
    rw [RequestHead.headers, List.forall₂_nil_right_iff.mp hlines, List.map_nil]
  have habsent := (hrecalls (by rw [hnone]; exact List.nodup_nil)).absent (text "Host")
    (by rw [hnone]; exact List.not_mem_nil)
  rw [habsent] at hhost
  cases hhost

end Member

end LWebServer
