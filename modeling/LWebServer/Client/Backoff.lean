import LWebServer.Client.Reconnect

/-!
# Backing off

A client whose attempts fail puts its tries off by 1, 2, 4, 8, 16 and 32 and then gives up. There
is one attempt or one try in the wheel at a time, whatever the kernel answers and whichever events
it reports.
-/

namespace LWebServer.Client

open TimerWheel

/-- The arguments of the first calls of `Connect`, by their number. -/
def paddings (count : ℕ) : List ℤ := (List.range count).map fun i : ℕ ↦ (i : ℤ)

theorem paddings_succ (count : ℕ) : paddings (count + 1) = paddings count ++ [(count : ℤ)] := by
  unfold paddings
  rw [List.range_succ, List.map_append]
  rfl

theorem paddings_isPrefix {count count' : ℕ} (hle : count ≤ count') :
    paddings count <+: paddings count' := by
  obtain ⟨rest, rfl⟩ := Nat.exists_eq_add_of_le hle
  unfold paddings
  rw [List.range_add, List.map_append]
  exact List.prefix_append _ _

/-- `Connect` has been called with 0, 1, 2 and so on, at most seven times. While the `timerfd` is
armed or its event has not been handled, it is for the power of two that belongs to the number of
these calls. The delay for the next try is at most the maximum. -/
structure BacksOff (c : Client) : Prop where
  connects : c.2.connects <+: paddings 7
  retryDelayMs_le : c.2.retryDelayMs ≤ kMaxRetryDelayMs
  armed : ∀ delay, c.2.timerfd = .armed delay ∨ c.2.timerfd = .due delay →
    c.2.connects.length ≤ 6 ∧ delay = 2 ^ (c.2.connects.length - 1)

/-- Where a client is with its tries, of which so many have been put off. -/
inductive Phase (c : Client) (tries : ℕ) : Prop
  /-- The last one has been made. -/
  | made (quiet : ∀ index, c.1.tvroot index = [])
      (timerfd : c.2.timerfd = .idle ∨ c.2.timerfd = .spent)
      (connects : c.2.connects = paddings (tries + 1))
  /-- The last one waits in the wheel. -/
  | waiting (slot : ℕ) (x : TimerNode Unit) (slot_eq : c.1.tvroot slot = [x])
      (others : ∀ index, index ≠ slot → c.1.tvroot index = []) (fd : x.fd = tries)
      (states : c.2.states = .kDisconnected) (connects : c.2.connects = paddings tries)
      (timerfd : 0 < tries ∧ ∀ delay, c.2.timerfd = .armed delay ∨ c.2.timerfd = .due delay →
        delay = 2 ^ (tries - 1))

/-- The delay of the next try. -/
structure Counted (c : Client) (tries : ℕ) : Prop where
  sane : Sane c
  tries_le : tries ≤ 6
  oneparameter : c.2.oneparameter = tries
  retryDelayMs : c.2.retryDelayMs = min (2 ^ tries) kMaxRetryDelayMs

/-- A client between two events. -/
structure Backing (c : Client) (tries : ℕ) : Prop where
  counted : Counted c tries
  phase : Phase c tries

variable {net : ℕ → ConnectAnswer} {c c' : Client} {tries : ℕ}

theorem Backing.backsOff (hbacking : Backing c tries) : BacksOff c := by
  have htries := hbacking.counted.tries_le
  have hdelay : c.2.retryDelayMs ≤ kMaxRetryDelayMs := by
    rw [hbacking.counted.retryDelayMs]
    exact min_le_right _ _
  cases hbacking.phase with
  | made quiet timerfd connects =>
    refine ⟨connects ▸ paddings_isPrefix (Nat.succ_le_succ htries), hdelay, fun delay harmed ↦ ?_⟩
    rcases timerfd with htimerfd | htimerfd <;> simp [htimerfd] at harmed
  | waiting slot x slot_eq others fd states connects timerfd =>
    have hlength : c.2.connects.length = tries := by simp [connects, paddings]
    refine ⟨connects ▸ paddings_isPrefix (htries.trans (by decide)), hdelay,
      fun delay harmed ↦ ?_⟩
    rw [hlength]
    exact ⟨htries, timerfd.2 delay harmed⟩

/-! ## Putting off -/

/-- The list of the current tick is thrown away. -/
def cleared (slot : ℕ) (c : Client) : Client :=
  ({ c.1 with tvroot := Function.update c.1.tvroot slot [] }, c.2)

/-- A client that has made its last try, in a tick whose list has not been thrown away. -/
structure Trying (c : Client) (tries : ℕ) : Prop where
  counted : Counted c tries
  others : ∀ index, index ≠ c.1.currenttime % 256 → c.1.tvroot index = []
  timerfd : c.2.timerfd = .idle ∨ c.2.timerfd = .spent

theorem quiet_cleared {slot : ℕ} (hothers : ∀ index, index ≠ slot → c.1.tvroot index = []) :
    ∀ index, (cleared slot c).1.tvroot index = [] := by
  intro index
  unfold cleared
  by_cases hsame : index = slot
  · rw [hsame]
    exact Function.update_self _ _ _
  · exact (Function.update_of_ne hsame _ _).trans (hothers index hsame)

theorem Counted.cleared (hcounted : Counted c tries) (slot : ℕ) :
    Counted (cleared slot c) tries := by
  obtain ⟨⟨htime, htv, hmp, hdelay⟩, htries, hparameter, hretry⟩ := hcounted
  exact ⟨⟨htime, htv, hmp, hdelay⟩, htries, hparameter, hretry⟩

/-- What an attempt of the current tick leaves, once the list of this tick has been thrown away. -/
structure Leaves (c c' : Client) : Prop where
  backing : ∃ tries, Backing (cleared (c.1.currenttime % 256) c') tries
  current : c'.1.tvroot (c.1.currenttime % 256) = c.1.tvroot (c.1.currenttime % 256)

/-- `retry` gives up after the delay of 32, and before this it puts a try off. -/
theorem Trying.retry (htrying : Trying c tries) (hconnects : c.2.connects = paddings (tries + 1)) :
    ∃ c', retry c = .ok () c' ∧ Leaves c c' := by
  obtain ⟨hsane, htries, hparameter, hdelay⟩ := htrying.counted
  obtain ⟨c', hretry, -, hattempted⟩ := retry_spec hsane
  refine ⟨c', hretry, ?_⟩
  let c₁ : Client := (c.1, { c.2 with states := .kDisconnected, watched := false })
  have hsane₁ : Sane c₁ := ⟨hsane.currenttime, hsane.tv, hsane.mp, hsane.retryDelayMs⟩
  unfold Client.retry at hretry
  rw [Op.bind_modify, Op.bind_get] at hretry
  by_cases hmax : c.2.retryDelayMs = kMaxRetryDelayMs
  · obtain ⟨-, rfl⟩ := EStateM.Result.ok.inj
      (hretry.symm.trans (congrFun (if_neg (not_not.mpr hmax)) c₁))
    have hcounted₁ : Counted c₁ tries := ⟨hsane₁, htries, hparameter, hdelay⟩
    exact ⟨⟨tries, hcounted₁.cleared _,
      .made (quiet_cleared htrying.others) htrying.timerfd hconnects⟩, rfl⟩
  · have htries₁ : tries ≤ 5 := by
      by_contra hlast
      obtain rfl : tries = 6 := by omega
      exact hmax (hdelay.trans (by decide))
    have hpow : c.2.retryDelayMs = 2 ^ tries := by
      rw [hdelay, min_eq_left]
      exact (Nat.pow_le_pow_right (by decide) htries₁).trans (by decide)
    have hrange := hsane.retryDelayMs
    obtain ⟨ptr, hfd, hreset⟩ := @resetEventfd_eq c₁ hsane₁ c.2.retryDelayMs (by omega)
    obtain ⟨-, rfl⟩ := EStateM.Result.ok.inj
      (hretry.symm.trans ((congrFun (if_pos hmax) c₁).trans (Op.bind_of_ok hreset)))
    have hslot : (c.1.currenttime + c.2.retryDelayMs) % 2 ^ 32 % 256 ≠ c.1.currenttime % 256 := by
      omega
    have hdelay' : min (c.2.retryDelayMs * 2) kMaxRetryDelayMs =
        min (2 ^ (tries + 1)) kMaxRetryDelayMs := by
      rw [hpow, pow_succ]
    have hparameter' : c.2.oneparameter + 1 = (tries + 1 : ℕ) := by
      rw [hparameter, Nat.cast_add_one]
    refine ⟨⟨tries + 1, (Counted.mk hattempted.sane (Nat.succ_le_succ htries₁) hparameter'
      hdelay').cleared _, ?_⟩, Function.update_of_ne hslot.symm _ _⟩
    refine .waiting ((c.1.currenttime + c.2.retryDelayMs) % 2 ^ 32 % 256) ptr ?_
      (fun index hne ↦ ?_) (hfd.trans hparameter') rfl hconnects
      ⟨tries.succ_pos, fun delay harmed ↦ ?_⟩
    · calc
        _ = Function.update c.1.tvroot _ (c.1.tvroot _ ++ [ptr]) _ :=
          Function.update_of_ne hslot _ _
        _ = c.1.tvroot _ ++ [ptr] := Function.update_self _ _ _
        _ = [ptr] := by rw [htrying.others _ hslot, List.nil_append]
    · by_cases hcurrent : index = c.1.currenttime % 256
      · rw [hcurrent]
        exact Function.update_self _ _ _
      · calc
          _ = Function.update c.1.tvroot _ (c.1.tvroot _ ++ [ptr]) index :=
            Function.update_of_ne hcurrent _ _
          _ = c.1.tvroot index := Function.update_of_ne hne _ _
          _ = [] := htrying.others index hcurrent
    · have hsame : c.2.retryDelayMs = delay := by
        rcases harmed with harmed | harmed <;> cases harmed
        rfl
      rw [← hsame, hpow, Nat.add_sub_cancel]

/-- An attempt that does not succeed, in a tick. -/
theorem Trying.connect (net : ℕ → ConnectAnswer) (htrying : Trying c tries)
    (hconnects : c.2.connects = paddings tries) :
    ∃ c', connect net tries c = .ok () c' ∧ Leaves c c' := by
  obtain ⟨hsane, htries, hparameter, hdelay⟩ := htrying.counted
  let c₁ : Client := (c.1, { c.2 with connects := c.2.connects ++ [(tries : ℤ)] })
  have hsane₁ : Sane c₁ := ⟨hsane.currenttime, hsane.tv, hsane.mp, hsane.retryDelayMs⟩
  have hcounted₁ : Counted c₁ tries := ⟨hsane₁, htries, hparameter, hdelay⟩
  have hconnects₁ : c₁.2.connects = paddings (tries + 1) := by
    rw [paddings_succ, ← hconnects]
  unfold Client.connect
  rw [Op.bind_get, Op.bind_modify]
  cases net c.2.connects.length with
  | connecting =>
    have hcounted₂ : Counted (c.1, { c₁.2 with states := .kConnecting, watched := true }) tries :=
      ⟨⟨hsane.currenttime, hsane.tv, hsane.mp, hsane.retryDelayMs⟩, htries, hparameter, hdelay⟩
    exact ⟨_, rfl, ⟨tries, hcounted₂.cleared _,
      .made (quiet_cleared htrying.others) htrying.timerfd hconnects₁⟩, rfl⟩
  | retry =>
    obtain ⟨c', hretry, hbacking, hcurrent⟩ :=
      (Trying.mk hcounted₁ htrying.others htrying.timerfd).retry hconnects₁
    exact ⟨c', hretry, hbacking, hcurrent⟩
  | close =>
    exact ⟨_, rfl, ⟨tries, hcounted₁.cleared _,
      .made (quiet_cleared htrying.others) htrying.timerfd hconnects₁⟩, rfl⟩

/-- Where nothing waits, there is nothing to throw away. -/
theorem Leaves.of_quiet (hleaves : Leaves c c')
    (hquiet : c.1.tvroot (c.1.currenttime % 256) = []) : ∃ tries, Backing c' tries := by
  have hsame : cleared (c.1.currenttime % 256) c' = c' := by
    unfold cleared
    rw [← hquiet, ← hleaves.current, Function.update_eq_self]
  rw [← hsame]
  exact hleaves.backing

/-! ## Events -/

/-- A tick in which no try is made. -/
theorem Counted.ticked (hcounted : Counted c tries) :
    Counted (c.1.ticked, { c.2 with timerfd := .spent }) tries := by
  obtain ⟨⟨-, htv, hmp, hdelay⟩, htries, hparameter, hretry⟩ := hcounted
  exact ⟨⟨Nat.mod_lt _ (Nat.two_pow_pos 32), htv, hmp, hdelay⟩, htries, hparameter, hretry⟩

theorem tvroot_ticked {w : TimerWheel Unit} {index : ℕ}
    (hquiet : w.tvroot ((w.currenttime + 1) % 2 ^ 32 % 256) = []) :
    w.ticked.tvroot index = w.tvroot index := by
  unfold TimerWheel.ticked
  dsimp only
  rw [← hquiet, Function.update_eq_self]

/-- The event of the `timerfd`. -/
theorem Backing.timer (hbacking : Backing c tries) (hhandle : handle net .timer c = .ok () c') :
    ∃ tries', Backing c' tries' := by
  have hsane := hbacking.counted.sane
  have hquietCase (hquiet : c.1.tvroot ((c.1.currenttime + 1) % 2 ^ 32 % 256) = []) :
      c' = (c.1.ticked, { c.2 with timerfd := .spent }) :=
    (EStateM.Result.ok.inj (hhandle.symm.trans (timer_quiet hsane hquiet))).2
  cases hbacking.phase with
  | made quiet timerfd connects =>
    obtain rfl := hquietCase (quiet _)
    exact ⟨tries, hbacking.counted.ticked,
      .made (fun index ↦ (tvroot_ticked (quiet _)).trans (quiet index)) (.inr rfl) connects⟩
  | waiting slot x slot_eq others fd states connects timerfd =>
    by_cases hnow : (c.1.currenttime + 1) % 2 ^ 32 % 256 = slot
    · rw [← hnow] at slot_eq others
      obtain ⟨c₂, hconnect, hfires, -, -⟩ := timer_fires net hsane slot_eq
      have htrying : Trying ({ c.1 with currenttime := (c.1.currenttime + 1) % 2 ^ 32 },
          { c.2 with timerfd := .spent }) tries := by
        obtain ⟨⟨-, htv, hmp, hdelay⟩, htries, hparameter, hretry⟩ := hbacking.counted
        exact ⟨⟨⟨Nat.mod_lt _ (Nat.two_pow_pos 32), htv, hmp, hdelay⟩, htries, hparameter, hretry⟩,
          others, .inr rfl⟩
      obtain ⟨c₃, hconnect', hleaves⟩ := htrying.connect net connects
      rw [fd] at hconnect
      obtain ⟨-, rfl⟩ := EStateM.Result.ok.inj (hconnect.symm.trans hconnect')
      obtain ⟨-, rfl⟩ := EStateM.Result.ok.inj (hhandle.symm.trans hfires)
      exact hleaves.backing
    · have hquiet := others _ hnow
      obtain rfl := hquietCase hquiet
      refine ⟨tries, hbacking.counted.ticked, .waiting slot x ((tvroot_ticked hquiet).trans slot_eq)
        (fun index hne ↦ (tvroot_ticked hquiet).trans (others index hne)) fd states connects
        ⟨timerfd.1, fun delay harmed ↦ ?_⟩⟩
      rcases harmed with harmed | harmed <;> cases harmed

/-- The event of the socket that is being connected. -/
theorem Backing.socket {fd : ℕ} {events : EpollEventType} (hbacking : Backing c tries)
    (henabled : (Happening.socket fd events).enabled c)
    (hhandle : handle net (.socket fd events) c = .ok () c') : ∃ tries', Backing c' tries' := by
  let c₁ : Client := (c.1, { c.2 with watched := false })
  have hbacking₁ : Backing c₁ tries := by
    obtain ⟨⟨⟨htime, htv, hmp, hdelay⟩, htries, hparameter, hretry⟩, hphase⟩ := hbacking
    refine ⟨⟨⟨htime, htv, hmp, hdelay⟩, htries, hparameter, hretry⟩, ?_⟩
    cases hphase with
    | made quiet timerfd connects => exact .made quiet timerfd connects
    | waiting slot x slot_eq others fd states connects timerfd =>
      exact .waiting slot x slot_eq others fd states connects timerfd
  have hbranch : (if events &&& EpollEventType.eetRDHup ≠ 0 then remove fd
      else if events &&& EpollEventType.eetCouldRead ≠ 0 then readSocker fd
      else if events &&& EpollEventType.eetCouldWrite ≠ 0 then handleWrite fd true
      else pure ()) c₁ = .ok () c' := hhandle
  have hnot : fd ∉ c.2.sockers := by
    have hboth := (Bool.and_eq_true _ _).mp henabled
    simpa using hboth.2
  split_ifs at hbranch
  · have hthrows : remove fd c₁ = .error .logicError c₁ := if_neg hnot
    rw [hthrows] at hbranch
    cases hbranch
  · have hundefined : readSocker fd c₁ = .error .undefinedBehaviour c₁ := if_neg hnot
    rw [hundefined] at hbranch
    cases hbranch
  · unfold handleWrite at hbranch
    rw [Op.bind_get] at hbranch
    by_cases hconnecting : c₁.2.states = .kConnecting
    · rw [if_pos hconnecting] at hbranch
      cases hbacking₁.phase with
      | made quiet timerfd connects =>
        have htrying : Trying c₁ tries := ⟨hbacking₁.counted, fun index _ ↦ quiet index, timerfd⟩
        obtain ⟨c₂, hretry, hleaves⟩ := htrying.retry connects
        obtain ⟨-, rfl⟩ := EStateM.Result.ok.inj (hretry.symm.trans hbranch)
        exact hleaves.of_quiet (quiet _)
      | waiting slot x slot_eq others fd states connects timerfd =>
        rw [states] at hconnecting
        cases hconnecting
    · rw [if_neg hconnecting] at hbranch
      obtain ⟨-, rfl⟩ := EStateM.Result.ok.inj hbranch
      exact ⟨tries, hbacking₁⟩
  · obtain ⟨-, rfl⟩ := EStateM.Result.ok.inj hbranch
    exact ⟨tries, hbacking₁⟩

/-- The `timerfd` expires. -/
theorem Backing.expire (hbacking : Backing c tries) (henabled : Happening.expire.enabled c)
    (hhandle : handle net .expire c = .ok () c') : ∃ tries', Backing c' tries' := by
  cases htimerfd : c.2.timerfd with
  | idle => simp [Happening.enabled, htimerfd] at henabled
  | due delay => simp [Happening.enabled, htimerfd] at henabled
  | spent => simp [Happening.enabled, htimerfd] at henabled
  | armed delay =>
    have hexpire : handle net .expire c = .ok () (c.1, { c.2 with timerfd := .due delay }) :=
      (show handle net .expire c = .ok () (mapConnection _ c) from rfl).trans
        (by rw [mapConnection, htimerfd])
    obtain ⟨-, rfl⟩ := EStateM.Result.ok.inj (hhandle.symm.trans hexpire)
    obtain ⟨⟨⟨htime, htv, hmp, hdelay⟩, htries, hparameter, hretry⟩, hphase⟩ := hbacking
    refine ⟨tries, ⟨⟨htime, htv, hmp, hdelay⟩, htries, hparameter, hretry⟩, ?_⟩
    cases hphase with
    | made quiet timerfd connects => simp [htimerfd] at timerfd
    | waiting slot x slot_eq others fd states connects timerfd =>
      refine .waiting slot x slot_eq others fd states connects ⟨timerfd.1, fun late harmed ↦ ?_⟩
      apply timerfd.2
      rcases harmed with harmed | harmed <;> cases harmed
      exact .inl htimerfd

theorem backing_handle {happening : Happening} (hbacking : Backing c tries)
    (henabled : happening.enabled c) (hhandle : handle net happening c = .ok () c') :
    ∃ tries', Backing c' tries' := by
  cases happening with
  | expire => exact hbacking.expire henabled hhandle
  | timer => exact hbacking.timer hhandle
  | socket fd events => exact hbacking.socket henabled hhandle

theorem backing_new (net : ℕ → ConnectAnswer) :
    ∃ tries, Backing (Op.finalState (connect net 0 new)) tries := by
  have hsane : Sane new := ⟨Nat.two_pow_pos 32, fun _ _ ↦ rfl, fun _ h ↦ absurd rfl h, by decide⟩
  have htrying : Trying new 0 :=
    ⟨⟨hsane, Nat.zero_le 6, rfl, by decide⟩, fun _ _ ↦ rfl, .inl rfl⟩
  obtain ⟨c', hconnect, hleaves⟩ := htrying.connect net rfl
  have hfirst : connect net 0 new = .ok () c' := hconnect
  rw [hfirst]
  exact hleaves.of_quiet rfl

/-- Whatever happens to a client whose attempts fail, it backs off: there are at most seven
attempts, the first six of them are followed by delays of 1, 2, 4, 8, 16 and 32 if they are put
off, and the delay never exceeds its maximum. -/
theorem backsOff_history (net : ℕ → ConnectAnswer) (happenings : List Happening) :
    ∀ step ∈ history net happenings (Op.finalState (connect net 0 new)), BacksOff step.after := by
  have hall (c : Client) (tries : ℕ) (hbacking : Backing c tries) :
      ∀ step ∈ history net happenings c, BacksOff step.after := by
    induction happenings generalizing c tries with
    | nil => simp [history]
    | cons happening happenings ih =>
      unfold history
      by_cases henabled : happening.enabled c
      · rw [if_pos henabled]
        cases hhandle : handle net happening c with
        | error e c' => simp
        | ok u c' =>
          obtain ⟨tries', hbacking'⟩ := backing_handle hbacking henabled hhandle
          rw [List.forall_mem_cons]
          exact ⟨hbacking'.backsOff, ih c' tries' hbacking'⟩
      · rw [if_neg henabled]
        exact ih c tries hbacking
  obtain ⟨tries, hbacking⟩ := backing_new net
  exact hall _ tries hbacking

/-- Each attempt is refused, and the second one has been put off by two seconds. -/
theorem backsOff_history_refused : ∃ step ∈ history (fun _ ↦ .retry) [.expire, .timer]
    (Op.finalState (connect (fun _ ↦ .retry) 0 new)),
      step.after.2.timerfd = .armed 2 ∧ BacksOff step.after := by
  have hsecond : ∃ step ∈ history (fun _ ↦ .retry) [.expire, .timer]
      (Op.finalState (connect (fun _ ↦ .retry) 0 new)), step.after.2.timerfd = .armed 2 :=
    ⟨_, List.mem_cons_of_mem _ List.mem_cons_self, by decide +kernel⟩
  obtain ⟨step, hstep, hdelay⟩ := hsecond
  exact ⟨step, hstep, hdelay, backsOff_history _ _ step hstep⟩

end LWebServer.Client
