import LWebServer.Client.Client
import LWebServer.Tool.TimerIndex

/-!
# Reconnecting

A try that is put off by `d` is in the wheel with `d` ticks to go, and the `timerfd` that has been
armed for `d` seconds makes the wheel tick once. The two agree only for a delay of one.
-/

namespace LWebServer.Client

open TimerWheel

/-- A try waits in the wheel, the `timerfd` will not report anything new, and there is no attempt to
connect. -/
structure Stranded (c : Client) : Prop where
  waits : c.1.nodes ≠ []
  timerfd : c.2.timerfd = .idle ∨ c.2.timerfd = .spent
  states : c.2.states ≠ .kConnecting

/-- Something that has happened, between two states. -/
structure Step where
  happening : Happening
  before : Client
  after : Client

/-- What happens to a client. What the kernel cannot do does not happen, and an exception ends the
thread of the loop. -/
def history (net : ℕ → ConnectAnswer) : List Happening → Client → List Step
  | [], _ => []
  | happening :: happenings, c =>
    if happening.enabled c then
      match handle net happening c with
      | .ok _ c' => ⟨happening, c, c'⟩ :: history net happenings c'
      | .error _ _ => []
    else history net happenings c

/-- No try is stranded, and where an expiry of the `timerfd` has been handled every try that waited
for it has been made. -/
structure Lawful (step : Step) : Prop where
  notStranded : ¬ Stranded step.after
  invoked : ∀ delay, step.happening = .timer → step.before.2.timerfd = .due delay →
    ∀ x ∈ step.before.1.nodes, x.fd ∈ step.after.2.connects

/-- An expiry of the `timerfd` is handled only if it was armed for one second. -/
def Prompt (step : Step) : Prop :=
  ∀ delay, step.happening = .timer → step.before.2.timerfd = .due delay → delay = 1

/-! ## The wheel of a client -/

/-- The first wheel has one node, so many ticks ahead. -/
structure Waits (w : TimerWheel Unit) (delay : ℕ) (x : TimerNode Unit) : Prop where
  slot : w.tvroot ((w.currenttime + delay) % 2 ^ 32 % 256) = [x]
  others : ∀ index, index ≠ (w.currenttime + delay) % 2 ^ 32 % 256 → w.tvroot index = []

/-- The wheel and the connection as they are between two calls. -/
structure Sane (c : Client) : Prop where
  currenttime : c.1.currenttime < 2 ^ 32
  tv : ∀ level index, c.1.tv level index = []
  mp : ∀ fd, c.1.mp fd ≠ none → fd ≤ c.2.oneparameter
  retryDelayMs : 1 ≤ c.2.retryDelayMs ∧ c.2.retryDelayMs ≤ 48

/-- What waits in the wheel of a client whose `timerfd` is in the given state. -/
def Agrees (c : Client) : Timerfd → Prop
  | .idle => ∀ index, c.1.tvroot index = []
  | .spent => ∀ index, c.1.tvroot index = []
  | .armed delay => (1 ≤ delay ∧ delay ≤ 48) ∧ c.2.states = .kDisconnected ∧ ∃ x, Waits c.1 delay x
  | .due delay => (1 ≤ delay ∧ delay ≤ 48) ∧ c.2.states = .kDisconnected ∧ ∃ x, Waits c.1 delay x

/-- Nothing is stranded, and nothing will be before the `timerfd` expires. -/
structure Regular (c : Client) : Prop where
  sane : Sane c
  agrees : Agrees c c.2.timerfd

variable {net : ℕ → ConnectAnswer} {c : Client}

theorem nodes_of_waits {w : TimerWheel Unit} {delay : ℕ} {x : TimerNode Unit}
    (htv : ∀ level index, w.tv level index = []) (hwaits : Waits w delay x) : w.nodes = [x] := by
  have hmem : (w.currenttime + delay) % 2 ^ 32 % 256 ∈ List.range 256 :=
    List.mem_range.mpr (Nat.mod_lt _ (by decide))
  have hall := flatMap_update_perm List.nodup_range hmem w.tvroot [x]
  have hempty : (List.range 256).flatMap
      (Function.update w.tvroot ((w.currenttime + delay) % 2 ^ 32 % 256) []) = [] := by
    rw [List.flatMap_eq_nil_iff]
    intro index _
    by_cases hsame : index = (w.currenttime + delay) % 2 ^ 32 % 256
    · rw [hsame, Function.update_self]
    · rw [Function.update_of_ne hsame, hwaits.others index hsame]
  rw [← hwaits.slot, Function.update_eq_self, hempty, hwaits.slot] at hall
  rw [nodes_eq htv]
  exact List.perm_singleton.mp hall

theorem nodes_of_quiet {w : TimerWheel Unit} (htv : ∀ level index, w.tv level index = [])
    (hquiet : ∀ index, w.tvroot index = []) : w.nodes = [] := by
  rw [nodes_eq htv]
  simp [hquiet]

/-- `ResetEventfd` puts one node into the wheel. -/
theorem resetEventfd_eq (hsane : Sane c) {delay : ℕ} (hdelay : delay < 256) :
    ∃ ptr : TimerNode Unit, ptr.fd = c.2.oneparameter + 1 ∧ resetEventfd delay c =
      .ok () (({ c.1 with fresh := c.1.fresh + 1 }.pushRoot
          ((c.1.currenttime + delay) % 2 ^ 32 % 256) ptr),
        { c.2 with oneparameter := c.2.oneparameter + 1, timerfd := .armed delay }) := by
  have hmp : c.1.mp (c.2.oneparameter + 1) = none := by
    by_contra hne
    have hle := hsane.mp _ hne
    omega
  have hadd := twAdd_unused hmp hsane.currenttime () delay (by omega)
  rw [if_pos hdelay] at hadd
  obtain ⟨ptr, hfd, -, hadd⟩ := hadd
  refine ⟨ptr, hfd, ?_⟩
  have hwithin : within (twAdd (c.2.oneparameter + 1) () delay)
      (c.1, { c.2 with oneparameter := c.2.oneparameter + 1 }) =
      .ok () (({ c.1 with fresh := c.1.fresh + 1 }.pushRoot
          ((c.1.currenttime + delay) % 2 ^ 32 % 256) ptr),
        { c.2 with oneparameter := c.2.oneparameter + 1 }) := by
    unfold within
    dsimp only
    rw [hadd]
  unfold resetEventfd
  rw [Op.bind_modify, Op.bind_get]
  exact Op.bind_of_ok hwithin

/-- A try has been put off. -/
structure PutOff (c : Client) (delay : ℕ) (c' : Client) : Prop where
  inRange : 1 ≤ delay ∧ delay ≤ 48
  wheel : ∃ ptr : TimerNode Unit, c'.1 = { c.1 with fresh := c.1.fresh + 1 }.pushRoot
    ((c.1.currenttime + delay) % 2 ^ 32 % 256) ptr
  timerfd : c'.2.timerfd = .armed delay
  states : c'.2.states = .kDisconnected

/-- What a failed attempt leaves: the wheel and the `timerfd` as they were, or a try put off. -/
structure Attempted (c c' : Client) : Prop where
  sane : Sane c'
  outcome : (c'.1 = c.1 ∧ c'.2.timerfd = c.2.timerfd) ∨ ∃ delay, PutOff c delay c'

theorem Attempted.of_eq {c₁ c' : Client} (h : Attempted c₁ c') (hwheel : c₁.1 = c.1)
    (htimerfd : c₁.2.timerfd = c.2.timerfd) : Attempted c c' := by
  refine ⟨h.sane, ?_⟩
  rcases h.outcome with ⟨hsame, htimer⟩ | ⟨delay, hdelay, hput, htimer, hstates⟩
  · exact .inl ⟨hsame.trans hwheel, htimer.trans htimerfd⟩
  · rw [hwheel] at hput
    exact .inr ⟨delay, hdelay, hput, htimer, hstates⟩

/-- `retry` gives up or puts a try off. -/
theorem retry_spec (hsane : Sane c) :
    ∃ c', retry c = .ok () c' ∧ c'.2.connects = c.2.connects ∧ Attempted c c' := by
  let c₁ : Client := (c.1, { c.2 with states := .kDisconnected, watched := false })
  have hsane₁ : Sane c₁ := ⟨hsane.currenttime, hsane.tv, hsane.mp, hsane.retryDelayMs⟩
  obtain ⟨hlow, hhigh⟩ := hsane.retryDelayMs
  unfold retry
  rw [Op.bind_modify, Op.bind_get]
  by_cases hmax : c.2.retryDelayMs = kMaxRetryDelayMs
  · exact ⟨c₁, congrFun (if_neg (not_not.mpr hmax)) c₁, rfl, hsane₁, .inl ⟨rfl, rfl⟩⟩
  · have hdelay : c.2.retryDelayMs < 256 := by omega
    obtain ⟨ptr, hfd, hreset⟩ := resetEventfd_eq hsane₁ hdelay
    refine ⟨_, (congrFun (if_pos hmax) c₁).trans (Op.bind_of_ok hreset), rfl,
      ⟨hsane.currenttime, hsane.tv, ?_, ?_⟩,
      .inr ⟨c.2.retryDelayMs, ⟨hlow, hhigh⟩, ⟨ptr, rfl⟩, rfl, rfl⟩⟩
    · intro fd hne
      change fd ≤ c.2.oneparameter + 1
      by_cases hsame : fd = ptr.fd
      · rw [hsame, hfd]
      · have hold : c.1.mp fd ≠ none := by
          intro hnone
          exact hne ((Function.update_of_ne hsame _ _).trans hnone)
        have hle := hsane.mp fd hold
        omega
    · change 1 ≤ min (c.2.retryDelayMs * 2) 48 ∧ min (c.2.retryDelayMs * 2) 48 ≤ 48
      omega

theorem connect_spec (net : ℕ → ConnectAnswer) (hsane : Sane c) (padding : ℤ) :
    ∃ c', connect net padding c = .ok () c' ∧ c'.2.connects = c.2.connects ++ [padding] ∧
      Attempted c c' := by
  let c₁ : Client := (c.1, { c.2 with connects := c.2.connects ++ [padding] })
  have hsane₁ : Sane c₁ := ⟨hsane.currenttime, hsane.tv, hsane.mp, hsane.retryDelayMs⟩
  unfold connect
  rw [Op.bind_get, Op.bind_modify]
  cases net c.2.connects.length with
  | connecting =>
    exact ⟨_, rfl, rfl, ⟨hsane.currenttime, hsane.tv, hsane.mp, hsane.retryDelayMs⟩,
      .inl ⟨rfl, rfl⟩⟩
  | retry =>
    obtain ⟨c', hretry, hconnects, hattempted⟩ := retry_spec hsane₁
    exact ⟨c', hretry, hconnects, hattempted.of_eq rfl rfl⟩
  | close => exact ⟨c₁, rfl, rfl, hsane₁, .inl ⟨rfl, rfl⟩⟩

/-- A try that has been put off waits in a wheel that was empty but for one slot. -/
theorem PutOff.waits {delay : ℕ} {c' : Client} (h : PutOff c delay c')
    {w : TimerWheel Unit} (hw : w.currenttime = c.1.currenttime)
    (hroot : ∀ index, index ≠ c.1.currenttime % 256 → c.1.tvroot index = [])
    (htvroot : w.tvroot = Function.update c'.1.tvroot (c.1.currenttime % 256) []) :
    ∃ x, Waits w delay x := by
  obtain ⟨ptr, hwheel⟩ := h.wheel
  have hdelay := h.inRange
  have hslot : (c.1.currenttime + delay) % 2 ^ 32 % 256 ≠ c.1.currenttime % 256 := by omega
  refine ⟨ptr, ?_, fun index hne ↦ ?_⟩
  · rw [hw, htvroot, Function.update_of_ne hslot, hwheel]
    unfold pushRoot
    dsimp only
    rw [Function.update_self, hroot _ hslot, List.nil_append]
  · rw [hw] at hne
    rw [htvroot]
    by_cases hcurrent : index = c.1.currenttime % 256
    · rw [hcurrent, Function.update_self]
    · rw [Function.update_of_ne hcurrent, hwheel]
      unfold pushRoot
      dsimp only
      rw [Function.update_of_ne hne, hroot index hcurrent]

/-! ## What happens -/

theorem handle_timer (net : ℕ → ConnectAnswer) (c : Client) : handle net .timer c =
    twTick (fun _ fd ↦ connect net fd) (c.1, { c.2 with timerfd := .spent }) := rfl

/-- The event of the `timerfd`, where nothing is to be tried in this tick. -/
theorem timer_quiet (hsane : Sane c)
    (hquiet : c.1.tvroot ((c.1.currenttime + 1) % 2 ^ 32 % 256) = []) :
    handle net .timer c = .ok () (c.1.ticked, { c.2 with timerfd := .spent }) := by
  rw [handle_timer]
  apply twTick_eq hsane.tv
  rw [hquiet]
  rfl

/-- The event of the `timerfd`, where one try is made in this tick. -/
theorem timer_fires (net : ℕ → ConnectAnswer) (hsane : Sane c) {x : TimerNode Unit}
    (hslot : c.1.tvroot ((c.1.currenttime + 1) % 2 ^ 32 % 256) = [x]) :
    ∃ c', connect net x.fd ({ c.1 with currenttime := (c.1.currenttime + 1) % 2 ^ 32 },
        { c.2 with timerfd := .spent }) = .ok () c' ∧
      handle net .timer c = .ok () ({ c'.1 with
        tvroot := Function.update c'.1.tvroot ((c.1.currenttime + 1) % 2 ^ 32 % 256) [] }, c'.2) ∧
      c'.2.connects = c.2.connects ++ [x.fd] ∧
      Attempted ({ c.1 with currenttime := (c.1.currenttime + 1) % 2 ^ 32 },
        { c.2 with timerfd := .spent }) c' := by
  let c₁ : Client := ({ c.1 with currenttime := (c.1.currenttime + 1) % 2 ^ 32 },
    { c.2 with timerfd := .spent })
  have hsane₁ : Sane c₁ :=
    ⟨Nat.mod_lt _ (Nat.two_pow_pos 32), hsane.tv, hsane.mp, hsane.retryDelayMs⟩
  obtain ⟨c', hconnect, hconnects, hattempted⟩ := connect_spec net hsane₁ x.fd
  refine ⟨c', hconnect, ?_, hconnects, hattempted⟩
  have hindex : (c.1.currenttime + 1) % 2 ^ 32 &&& tvrMask =
      (c.1.currenttime + 1) % 2 ^ 32 % 256 := firstIndex_eq _
  have hwithin : within advance (c.1, { c.2 with timerfd := .spent }) = .ok () c₁ := by
    unfold within
    rw [advance_eq hsane.tv]
  have hcalls : expireAll (fun _ fd ↦ connect net fd) [x] c₁ = .ok () c' := Op.bind_of_ok hconnect
  rw [handle_timer]
  unfold twTick
  rw [Op.bind_of_ok hwithin, Op.bind_get]
  dsimp only [c₁]
  rw [hindex, hslot]
  exact Op.bind_of_ok hcalls

theorem Regular.notStranded (hregular : Regular c) : ¬ Stranded c := by
  rintro ⟨hwaits, htimerfd, -⟩
  have hagrees := hregular.agrees
  rcases htimerfd with htimerfd | htimerfd <;> rw [htimerfd] at hagrees <;>
    exact hwaits (nodes_of_quiet hregular.sane.tv hagrees)

theorem Agrees.congr {c c' : Client} {timerfd : Timerfd} (hagrees : Agrees c timerfd)
    (hwheel : c'.1 = c.1) (hstates : c'.2.states = c.2.states) : Agrees c' timerfd := by
  cases timerfd with
  | idle => exact fun index ↦ by rw [hwheel]; exact hagrees index
  | spent => exact fun index ↦ by rw [hwheel]; exact hagrees index
  | armed delay =>
    unfold Agrees
    rw [hwheel, hstates]
    exact hagrees
  | due delay =>
    unfold Agrees
    rw [hwheel, hstates]
    exact hagrees

/-- A failed attempt of a client in whose wheel nothing waits. -/
theorem regular_attempted {c' : Client} (hattempted : Attempted c c')
    (hquiet : ∀ index, c.1.tvroot index = [])
    (htimerfd : c.2.timerfd = .idle ∨ c.2.timerfd = .spent) : Regular c' := by
  refine ⟨hattempted.sane, ?_⟩
  rcases hattempted.outcome with ⟨hwheel, htimer⟩ | ⟨delay, hput⟩
  · rw [htimer]
    rcases htimerfd with h | h <;> rw [h] <;> intro index <;> rw [hwheel, hquiet]
  · rw [hput.timerfd]
    have hdelay := hput.inRange
    obtain ⟨ptr, hwheel⟩ := hput.wheel
    have hslot : c.1.currenttime % 256 ≠ (c.1.currenttime + delay) % 2 ^ 32 % 256 := by omega
    have hnone : c'.1.tvroot (c.1.currenttime % 256) = [] := by
      rw [hwheel]
      exact (Function.update_of_ne hslot _ _).trans (hquiet _)
    have htime : c'.1.currenttime = c.1.currenttime := by
      rw [hwheel]
      rfl
    exact ⟨hdelay, hput.states, hput.waits htime (fun index _ ↦ hquiet index)
      (by rw [← hnone, Function.update_eq_self])⟩

/-- The event of an expiry, one second after the `timerfd` has been armed. -/
theorem regular_prompt (net : ℕ → ConnectAnswer) (hregular : Regular c)
    (htimerfd : c.2.timerfd = .due 1) :
    ∃ c', handle net .timer c = .ok () c' ∧ Regular c' ∧
      ∀ x ∈ c.1.nodes, x.fd ∈ c'.2.connects := by
  have hagrees := hregular.agrees
  rw [htimerfd] at hagrees
  obtain ⟨-, -, x, hwaits⟩ := hagrees
  obtain ⟨c', -, hhandle, hconnects, hattempted⟩ :=
    timer_fires net hregular.sane hwaits.slot
  have hempty (index : ℕ) : Function.update c.1.tvroot
      ((c.1.currenttime + 1) % 2 ^ 32 % 256) [] index = [] := by
    by_cases hsame : index = (c.1.currenttime + 1) % 2 ^ 32 % 256
    · rw [hsame, Function.update_self]
    · rw [Function.update_of_ne hsame, hwaits.others index hsame]
  refine ⟨_, hhandle, ⟨?_, ?_⟩, ?_⟩
  · obtain ⟨htime, htv, hmp, hdelay⟩ := hattempted.sane
    exact ⟨htime, htv, hmp, hdelay⟩
  · rcases hattempted.outcome with ⟨hwheel, htimer⟩ | ⟨delay, hput⟩
    · change Agrees _ c'.2.timerfd
      rw [htimer]
      intro index
      change Function.update c'.1.tvroot _ [] index = []
      rw [hwheel]
      exact hempty index
    · change Agrees _ c'.2.timerfd
      rw [hput.timerfd]
      obtain ⟨ptr, hwheel⟩ := hput.wheel
      have htime : c'.1.currenttime = (c.1.currenttime + 1) % 2 ^ 32 := by
        rw [hwheel]
        rfl
      exact ⟨hput.inRange, hput.states, hput.waits htime hwaits.others rfl⟩
  · intro y hy
    rw [nodes_of_waits hregular.sane.tv hwaits] at hy
    rw [List.mem_singleton.mp hy]
    change x.fd ∈ c'.2.connects
    rw [hconnects]
    exact List.mem_append_right _ (List.mem_singleton_self _)

/-- The event of an expiry, after a longer time. -/
theorem stranded_late (net : ℕ → ConnectAnswer) (hregular : Regular c) {delay : ℕ}
    (htimerfd : c.2.timerfd = .due delay) (hlate : delay ≠ 1) :
    ∃ c', handle net .timer c = .ok () c' ∧ Stranded c' := by
  have hagrees := hregular.agrees
  rw [htimerfd] at hagrees
  obtain ⟨hdelay, hstates, x, hwaits⟩ := hagrees
  have hnow : (c.1.currenttime + 1) % 2 ^ 32 % 256 ≠
      (c.1.currenttime + delay) % 2 ^ 32 % 256 := by omega
  refine ⟨_, timer_quiet hregular.sane (hwaits.others _ hnow), ?_, .inr rfl, ?_⟩
  · have hticked : Waits c.1.ticked (delay - 1) x := by
      have hcount : ((c.1.currenttime + 1) % 2 ^ 32 + (delay - 1)) % 2 ^ 32 % 256 =
          (c.1.currenttime + delay) % 2 ^ 32 % 256 := by omega
      unfold ticked
      refine ⟨?_, fun index hne ↦ ?_⟩
      · dsimp only
        rw [hcount, Function.update_of_ne hnow.symm, hwaits.slot]
      · dsimp only at hne ⊢
        rw [hcount] at hne
        by_cases hsame : index = (c.1.currenttime + 1) % 2 ^ 32 % 256
        · rw [hsame, Function.update_self]
        · rw [Function.update_of_ne hsame, hwaits.others index hne]
    have htv : ∀ level index, c.1.ticked.tv level index = [] := hregular.sane.tv
    change c.1.ticked.nodes ≠ []
    rw [nodes_of_waits htv hticked]
    exact List.cons_ne_nil _ _
  · change c.2.states ≠ .kConnecting
    rw [hstates]
    decide

/-- The event of the `timerfd`, reported once more. -/
theorem regular_spent (net : ℕ → ConnectAnswer) (hregular : Regular c)
    (htimerfd : c.2.timerfd = .spent) :
    ∃ c', handle net .timer c = .ok () c' ∧ Regular c' := by
  have hagrees := hregular.agrees
  rw [htimerfd] at hagrees
  obtain ⟨-, htv, hmp, hdelay⟩ := hregular.sane
  refine ⟨_, timer_quiet hregular.sane (hagrees _), ⟨?_, htv, hmp, hdelay⟩, fun index ↦ ?_⟩
  · exact Nat.mod_lt _ (Nat.two_pow_pos 32)
  · change Function.update c.1.tvroot _ [] index = []
    by_cases hsame : index = (c.1.currenttime + 1) % 2 ^ 32 % 256
    · rw [hsame, Function.update_self]
    · rw [Function.update_of_ne hsame, hagrees index]

/-- The event of the socket that is being connected. -/
theorem regular_socket (hregular : Regular c) {fd : ℕ} {events : EpollEventType} {c' : Client}
    (henabled : (Happening.socket fd events).enabled c)
    (hhandle : handle net (.socket fd events) c = .ok () c') : Regular c' := by
  let c₁ : Client := (c.1, { c.2 with watched := false })
  obtain ⟨htime, htv, hmp, hdelay⟩ := hregular.sane
  have hregular₁ : Regular c₁ :=
    ⟨⟨htime, htv, hmp, hdelay⟩, hregular.agrees.congr rfl rfl⟩
  have hbranch : (if events &&& EpollEventType.eetRDHup ≠ 0 then remove fd
      else if events &&& EpollEventType.eetCouldRead ≠ 0 then readSocker fd
      else if events &&& EpollEventType.eetCouldWrite ≠ 0 then handleWrite fd true
      else pure ()) c₁ = .ok () c' := hhandle
  have hnot : fd ∉ c.2.sockers := by
    have hboth := (Bool.and_eq_true _ _).mp henabled
    simpa using hboth.2
  split_ifs at hbranch
  · have hthrows : remove fd c₁ = .error .logicError c₁ := if_neg hnot
    rw [hthrows] at hbranch
    cases hbranch
  · have hundefined : readSocker fd c₁ = .error .undefinedBehaviour c₁ := if_neg hnot
    rw [hundefined] at hbranch
    cases hbranch
  · by_cases hconnecting : c₁.2.states = .kConnecting
    · obtain ⟨c₂, hretry, -, hattempted⟩ := retry_spec hregular₁.sane
      have hwrite : handleWrite fd true c₁ = .ok () c₂ := by
        unfold handleWrite
        rw [Op.bind_get, if_pos hconnecting]
        exact hretry
      rw [hwrite] at hbranch
      cases hbranch
      have hagrees := hregular₁.agrees
      cases htimerfd : c₁.2.timerfd with
      | idle =>
        rw [htimerfd] at hagrees
        exact regular_attempted hattempted hagrees (.inl htimerfd)
      | spent =>
        rw [htimerfd] at hagrees
        exact regular_attempted hattempted hagrees (.inr htimerfd)
      | armed delay =>
        rw [htimerfd] at hagrees
        rw [hagrees.2.1] at hconnecting
        cases hconnecting
      | due delay =>
        rw [htimerfd] at hagrees
        rw [hagrees.2.1] at hconnecting
        cases hconnecting
    · have hwrite : handleWrite fd true c₁ = .ok () c₁ := by
        unfold handleWrite
        rw [Op.bind_get, if_neg hconnecting]
        rfl
      rw [hwrite] at hbranch
      have hsame : c₁ = c' := (EStateM.Result.ok.inj hbranch).2
      exact hsame ▸ hregular₁
  · have hsame : c₁ = c' := (EStateM.Result.ok.inj hbranch).2
    exact hsame ▸ hregular₁

/-- One thing that happens to a client that is regular. -/
theorem lawful_step {happening : Happening} {c' : Client} (hregular : Regular c)
    (henabled : happening.enabled c) (hhandle : handle net happening c = .ok () c') :
    (Prompt ⟨happening, c, c'⟩ → Lawful ⟨happening, c, c'⟩ ∧ Regular c') ∧
      (¬ Prompt ⟨happening, c, c'⟩ → ¬ Lawful ⟨happening, c, c'⟩) := by
  have hlawful (hnot : happening ≠ .timer) (hnext : Regular c') :
      Lawful ⟨happening, c, c'⟩ ∧ Regular c' ∧ Prompt ⟨happening, c, c'⟩ :=
    ⟨⟨hnext.notStranded, fun _ htimer ↦ absurd htimer hnot⟩, hnext,
      fun _ htimer ↦ absurd htimer hnot⟩
  cases happening with
  | expire =>
    have hnext : Regular c' := by
      obtain ⟨⟨htime, htv, hmp, hdelay⟩, hagrees⟩ := hregular
      cases htimerfd : c.2.timerfd with
      | idle => simp [Happening.enabled, htimerfd] at henabled
      | due delay => simp [Happening.enabled, htimerfd] at henabled
      | spent => simp [Happening.enabled, htimerfd] at henabled
      | armed delay =>
        rw [htimerfd] at hagrees
        have hexpire : handle net .expire c = .ok () (c.1, { c.2 with timerfd := .due delay }) :=
          (show handle net .expire c = .ok () (mapConnection _ c) from rfl).trans
            (by rw [mapConnection, htimerfd])
        cases hhandle.symm.trans hexpire
        exact ⟨⟨htime, htv, hmp, hdelay⟩, hagrees⟩
    obtain ⟨hl, hr, hp⟩ := hlawful (by simp) hnext
    exact ⟨fun _ ↦ ⟨hl, hr⟩, fun h ↦ absurd hp h⟩
  | socket fd events =>
    obtain ⟨hl, hr, hp⟩ := hlawful (by simp) (regular_socket hregular henabled hhandle)
    exact ⟨fun _ ↦ ⟨hl, hr⟩, fun h ↦ absurd hp h⟩
  | timer =>
    cases htimerfd : c.2.timerfd with
    | idle => simp [Happening.enabled, htimerfd] at henabled
    | armed delay => simp [Happening.enabled, htimerfd] at henabled
    | spent =>
      obtain ⟨c₂, hhandle₂, hnext⟩ := regular_spent net hregular htimerfd
      rw [hhandle] at hhandle₂
      cases hhandle₂
      have hnone (delay : ℕ) (hdue : c.2.timerfd = .due delay) : False := by
        rw [htimerfd] at hdue
        cases hdue
      refine ⟨fun _ ↦ ⟨⟨hnext.notStranded, fun delay _ hdue ↦ (hnone delay hdue).elim⟩, hnext⟩, ?_⟩
      exact fun h ↦ absurd (fun delay _ hdue ↦ (hnone delay hdue).elim) h
    | due delay =>
      by_cases hone : delay = 1
      · subst hone
        obtain ⟨c₂, hhandle₂, hnext, hinvoked⟩ := regular_prompt net hregular htimerfd
        rw [hhandle] at hhandle₂
        cases hhandle₂
        refine ⟨fun _ ↦ ⟨⟨hnext.notStranded, fun _ _ _ ↦ hinvoked⟩, hnext⟩, ?_⟩
        intro hnot
        refine absurd (fun delay _ hdue ↦ ?_) hnot
        rw [htimerfd] at hdue
        cases hdue
        rfl
      · obtain ⟨c₂, hhandle₂, hstranded⟩ := stranded_late net hregular htimerfd hone
        rw [hhandle] at hhandle₂
        cases hhandle₂
        exact ⟨fun h ↦ absurd (h delay rfl htimerfd) hone, fun _ h ↦ h.notStranded hstranded⟩

/-- In every run after the first call of `Connect`, the law holds of all that happens exactly if
every expiry that is handled is that of a `timerfd` armed for one second. -/
theorem lawful_history_iff (net : ℕ → ConnectAnswer) (happenings : List Happening) :
    (∀ step ∈ history net happenings (Op.finalState (connect net 0 new)), Lawful step) ↔
      ∀ step ∈ history net happenings (Op.finalState (connect net 0 new)), Prompt step := by
  have hall (c : Client) (hregular : Regular c) :
      (∀ step ∈ history net happenings c, Lawful step) ↔
        ∀ step ∈ history net happenings c, Prompt step := by
    induction happenings generalizing c with
    | nil => simp [history]
    | cons happening happenings ih =>
      unfold history
      by_cases henabled : happening.enabled c
      · rw [if_pos henabled]
        cases hhandle : handle net happening c with
        | error e c' => simp
        | ok u c' =>
          obtain ⟨hgood, hbad⟩ := lawful_step hregular henabled hhandle
          simp only [List.forall_mem_cons]
          by_cases hprompt : Prompt ⟨happening, c, c'⟩
          · obtain ⟨hlawful, hnext⟩ := hgood hprompt
            exact and_congr (iff_of_true hlawful hprompt) (ih c' hnext)
          · exact iff_of_false (fun h ↦ hbad hprompt h.1) fun h ↦ hprompt h.1
      · rw [if_neg henabled]
        exact ih c hregular
  have hnew : Sane new := ⟨Nat.two_pow_pos 32, fun _ _ ↦ rfl, fun _ h ↦ absurd rfl h, by decide⟩
  obtain ⟨c', hconnect, -, hattempted⟩ := connect_spec net hnew 0
  rw [hconnect]
  exact hall c' (regular_attempted hattempted (fun _ ↦ rfl) (.inl rfl))

/-- The second try in a row is put off by two seconds and is still in the wheel when the `timerfd`
has expired. -/
theorem not_lawful_secondTry : ¬ ∀ step ∈ history (fun _ ↦ .retry)
    [.expire, .timer, .expire, .timer] (Op.finalState (connect (fun _ ↦ .retry) 0 new)),
      Lawful step := by
  intro hall
  have hlast := hall _ (List.mem_cons_of_mem _ (List.mem_cons_of_mem _ (List.mem_cons_of_mem _
    List.mem_cons_self)))
  refine hlast.notStranded ⟨?_, .inr ?_, ?_⟩
  · decide +kernel
  · decide +kernel
  · decide +kernel

end LWebServer.Client
