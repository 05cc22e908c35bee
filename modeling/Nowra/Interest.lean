import Nowra.Dispatch

/-!
# Events and the interest behind them

`event_wait` goes through a batch of events that `epoll_wait` returned, and looks at none of their
masks again. Any callback before an event may have registered or cancelled interest in any
descriptor by then. The calls are recorded in a ledger for each descriptor (`Ledger`) : the interest
that is registered, the callback and the context that were registered last, and what was cancelled
since `epoll_wait` returned.

`event_wait` does for an event what its registration says if the event's direction was not cancelled
in the meantime, and unless `epoll_ctl` fails, only then (`dispatch_proper`). Otherwise a callback
is called without interest, or `maxfd` is below the descriptor and `event_wait` panics
(`stale_dispatch`).
-/

namespace Nowra

/-! ## The ledger -/

/-- A direction of a descriptor. -/
inductive Direction
  | read
  | write
  deriving DecidableEq

/-- The mask has the bit of a direction. -/
def EventMask.has (mask : EventMask) : Direction → Bool
  | .read => mask.read
  | .write => mask.write

/-- The events have the bit of a direction. -/
def EpollEvents.has (ev : EpollEvents) : Direction → Bool
  | .read => ev.epollin
  | .write => ev.epollout

/-- The direction that `event_wait` dispatches an event for. -/
def EpollEvent.direction (e : EpollEvent) : Direction :=
  if e.events.epollin then .read else .write

@[simp] theorem epollEvents_has (mask : EventMask) (d : Direction) :
    (epollEvents mask).has d = mask.has d := by
  cases d <;> rfl

@[simp] theorem or_has (m m' : EventMask) (d : Direction) :
    (m.or m').has d = (m.has d || m'.has d) := by
  cases d <;> rfl

@[simp] theorem without_has (m m' : EventMask) (d : Direction) :
    (m.without m').has d = (m.has d && !m'.has d) := by
  cases d <;> rfl

theorem ne_eventNone {mask : EventMask} {d : Direction} (h : mask.has d = true) :
    mask ≠ eventNone := by
  rintro rfl
  cases d <;> cases h

/-- An event for some direction is for the one that it is dispatched for. -/
theorem EpollEvent.has_direction {e : EpollEvent} {d : Direction} (h : e.events.has d = true) :
    e.events.has e.direction = true := by
  unfold EpollEvent.direction
  split
  · assumption
  · cases d with
    | read => exact absurd h ‹_›
    | write => exact h

variable {K κ γ : Type}

/-- The callback of a direction. -/
def EventBase.callback (eb : EventBase κ γ) : Direction → Option κ
  | .read => eb.readCb
  | .write => eb.writeCb

/-- What the calls so far have registered for a descriptor. -/
structure Ledger (κ γ : Type) where
  /-- The last call for the direction that did not fail was one of `event_enable_rw`. -/
  interest : Direction → Bool
  /-- The callback and the context of the last `event_enable_rw` for the direction. -/
  registered : Direction → Option (κ × γ)
  /-- The context of the last `event_enable_rw`. -/
  context : Option γ
  /-- The direction was disabled, and not enabled again, since `epoll_wait` returned. -/
  cancelled : Direction → Bool
  /-- A call of `event_enable_rw` failed since `epoll_wait` returned. -/
  failed : Bool

namespace Ledger

/-- Nothing is registered. -/
def empty : Ledger κ γ where
  interest _ := false
  registered _ := none
  context := none
  cancelled _ := false
  failed := false

/-- A call of `event_enable_rw` returned `r`. -/
def enabled (g : Ledger κ γ) (callback : κ) (context : γ) (mask : EventMask) (r : ℤ) :
    Ledger κ γ :=
  if r = 0 then
    { g with
      interest := fun d => g.interest d || mask.has d
      registered := fun d => if mask.has d then some (callback, context) else g.registered d
      context := some context
      cancelled := fun d => g.cancelled d && !mask.has d }
  else { g with failed := true }

/-- A call of `event_disable_rw` returned `r`. -/
def disabled (g : Ledger κ γ) (mask : EventMask) (r : ℤ) : Ledger κ γ :=
  if r = 0 then
    { g with
      interest := fun d => g.interest d && !mask.has d
      cancelled := fun d => g.cancelled d || mask.has d }
  else g

/-- `epoll_wait` returned. -/
def waited (g : Ledger κ γ) : Ledger κ γ := { g with cancelled := fun _ => false, failed := false }

end Ledger

/-! ## The loop -/

/-- A loop with the ledgers of its descriptors. -/
structure EventRun (K κ γ : Type) where
  evlp : EventLoop K κ γ
  phase : LoopPhase
  ledger : ℤ → Ledger κ γ

/-- What happens to the loop. -/
inductive EventLabel (κ γ : Type)
  | enable (fd : ℤ) (callback : κ) (context : γ) (mask : EventMask)
  | disable (fd : ℤ) (mask : EventMask)
  /-- `epoll_wait` returns. -/
  | ready (batch : List EpollEvent)
  /-- No timer is due. -/
  | timersDone
  /-- The callback of the next event is called. -/
  | event
  /-- The last event is done. -/
  | done

/-- The kernel reports each descriptor once, for directions that have interest. -/
def BatchOk (ledger : ℤ → Ledger κ γ) (batch : List EpollEvent) : Prop :=
  (batch.map (·.fd)).Nodup ∧ ∀ e ∈ batch,
    (e.events.has .read = true ∨ e.events.has .write = true) ∧
    (e.events.has .read = true → (ledger e.fd).interest .read = true) ∧
    (e.events.has .write = true → (ledger e.fd).interest .write = true)

instance (ledger : ℤ → Ledger κ γ) (batch : List EpollEvent) : Decidable (BatchOk ledger batch) :=
  inferInstanceAs (Decidable (_ ∧ _))

variable [EpollCtl K]

/-- One step of the loop. The callbacks of timers and of events make calls of `event_enable_rw` and
`event_disable_rw`, and so does the program between two calls of `event_wait`. -/
inductive EventStep : EventRun K κ γ → EventLabel κ γ → EventRun K κ γ → Prop
  | enable {l : EventRun K κ γ} {fd : ℤ} {callback : κ} {context : γ} {mask : EventMask}
      {r : ℤ × EventLoop K κ γ} (h : eventEnableRw l.evlp fd callback context mask = .ok r) :
      EventStep l (.enable fd callback context mask)
        { l with
          evlp := r.2
          ledger := Function.update l.ledger fd
            ((l.ledger fd).enabled callback context mask r.1) }
  | disable {l : EventRun K κ γ} {fd : ℤ} {mask : EventMask} {r : ℤ × EventLoop K κ γ}
      (h : eventDisableRw l.evlp fd mask = .ok r) :
      EventStep l (.disable fd mask)
        { l with
          evlp := r.2
          ledger := Function.update l.ledger fd ((l.ledger fd).disabled mask r.1) }
  | ready {l : EventRun K κ γ} {batch : List EpollEvent} (hphase : l.phase = .blocked)
      (hbatch : BatchOk l.ledger batch) :
      EventStep l (.ready batch)
        { l with phase := .timers batch, ledger := fun fd => (l.ledger fd).waited }
  | timersDone {l : EventRun K κ γ} {batch : List EpollEvent} (hphase : l.phase = .timers batch) :
      EventStep l .timersDone { l with phase := .events batch }
  | event {l : EventRun K κ γ} {e : EpollEvent} {batch : List EpollEvent} {callback : κ}
      {context : γ} (hphase : l.phase = .events (e :: batch))
      (h : eventCallback l.evlp e = .ok (some (some callback, some context))) :
      EventStep l .event { l with phase := .events batch }
  | done {l : EventRun K κ γ} (hphase : l.phase = .events []) :
      EventStep l .done { l with phase := .blocked }

/-- An event loop, from `event_init` for any number of descriptors. -/
def eventSystem (K κ γ : Type) [EpollCtl K] : LTS (EventRun K κ γ) (EventLabel κ γ) where
  init l := ∃ size epfd, l = ⟨eventInit κ γ size epfd, .blocked, fun _ => .empty⟩
  step := EventStep

/-! ## The two calls -/

omit [EpollCtl K] in
theorem EventLoop.setEvent_self (evlp : EventLoop K κ γ) (fd : ℤ) :
    evlp.setEvent fd (evlp.regEvents fd) = evlp := by
  rw [EventLoop.setEvent, Function.update_eq_self]

/-- What `event_enable_rw` does. The mask is in the slot before the kernel is asked, and the
callback after it. -/
theorem eventEnableRw_ok {evlp : EventLoop K κ γ} {fd : ℤ} {callback : κ} {context : γ}
    {mask : EventMask} {r : ℤ × EventLoop K κ γ}
    (h : eventEnableRw evlp fd callback context mask = .ok r) :
    0 ≤ fd ∧ ((r.1 = -1 ∧ ∃ mask', (∀ d, (evlp.regEvents fd).mask.has d = true →
        mask'.has d = true) ∧
        r.2 = evlp.setEvent fd { evlp.regEvents fd with mask := mask' }) ∨
      ∃ epfd, r = (0, { evlp.setEvent fd
        { mask := (evlp.regEvents fd).mask.or mask
          readCb := if mask.read then some callback else (evlp.regEvents fd).readCb
          writeCb := if mask.write then some callback else (evlp.regEvents fd).writeCb
          clientData := some context } with
        epfd := epfd, maxfd := max fd evlp.maxfd })) := by
  unfold eventEnableRw at h
  split at h
  · cases h
  rename_i hneg
  refine ⟨not_lt.1 hneg, ?_⟩
  split at h
  · obtain rfl := Except.ok.inj h
    exact Or.inl ⟨rfl, (evlp.regEvents fd).mask, fun _ hd => hd, (evlp.setEvent_self fd).symm⟩
  simp only at h
  split at h
  · obtain rfl := Except.ok.inj h
    exact Or.inl ⟨rfl, _, fun d hd => by simp [hd], rfl⟩
  · rename_i epfd _
    obtain rfl := Except.ok.inj h
    refine Or.inr ⟨epfd, ?_⟩
    have hmax : (if fd > evlp.maxfd then fd else evlp.maxfd) = max fd evlp.maxfd := by
      split <;> omega
    rw [hmax]

/-- What `event_disable_rw` does. `maxfd` is lowered when the last descriptor loses its mask. -/
theorem eventDisableRw_ok {evlp : EventLoop K κ γ} {fd : ℤ} {mask : EventMask}
    {r : ℤ × EventLoop K κ γ} (h : eventDisableRw evlp fd mask = .ok r) :
    r = (-1, evlp) ∨ ∃ epfd maxfd, r = (0, { evlp.setEvent fd
          { evlp.regEvents fd with mask := (evlp.regEvents fd).mask.without mask } with
          epfd := epfd, maxfd := maxfd }) ∧
        (maxfd = evlp.maxfd ∨ fd = evlp.maxfd ∧
          (evlp.regEvents fd).mask.without mask = eventNone ∧
          maxfd = lastRegistered r.2.regEvents evlp.maxfd.toNat) := by
  unfold eventDisableRw at h
  split at h
  · cases h
  split at h
  · obtain rfl := Except.ok.inj h
    exact Or.inl rfl
  simp only at h
  split at h
  · rename_i hnone
    obtain rfl := Except.ok.inj h
    have hmask : (evlp.regEvents fd).mask.without mask = (evlp.regEvents fd).mask := by
      rw [hnone]
      rfl
    refine Or.inr ⟨evlp.epfd, evlp.maxfd, ?_, Or.inl rfl⟩
    rw [hmask]
    exact congrArg (Prod.mk 0) (evlp.setEvent_self fd).symm
  split at h
  · obtain rfl := Except.ok.inj h
    exact Or.inl rfl
  · rename_i epfd _
    right
    split at h
    · rename_i hlast
      obtain rfl := Except.ok.inj h
      exact ⟨epfd, _, rfl, Or.inr ⟨hlast.1, hlast.2, rfl⟩⟩
    · obtain rfl := Except.ok.inj h
      exact ⟨epfd, evlp.maxfd, rfl, Or.inl rfl⟩

omit [EpollCtl K] in
/-- The scan stops at a registered descriptor. -/
theorem le_lastRegistered {regEvents : ℤ → EventBase κ γ} {fd : ℤ} (hpos : 0 ≤ fd)
    (hmask : (regEvents fd).mask ≠ eventNone) : ∀ {n : ℕ}, fd < n → fd ≤ lastRegistered regEvents n
  | 0, hlt => by omega
  | j + 1, hlt => by
    rw [lastRegistered]
    split
    · omega
    · rename_i hj
      have hne : fd ≠ j := by
        rintro rfl
        exact hj hmask
      exact le_lastRegistered hpos hmask (by omega)

/-! ## The table and the ledgers -/

/-- A slot holds what was registered last, and room for the interest. -/
structure EventBase.Agrees (eb : EventBase κ γ) (g : Ledger κ γ) : Prop where
  mask : ∀ d, g.interest d = true → eb.mask.has d = true
  known : ∀ d, g.interest d = true → (g.registered d).isSome = true
  callback : ∀ d, eb.callback d = (g.registered d).map Prod.fst
  context : eb.clientData = g.context
  last : ∀ d, (g.registered d).isSome = true → g.context.isSome = true
  cancelled : ∀ d, g.cancelled d = true → g.failed = true ∨ eb.mask.has d = false

section

omit [EpollCtl K]

variable {eb : EventBase κ γ} {g : Ledger κ γ}

/-- The kernel accepts new interest. -/
theorem EventBase.Agrees.enabled (h : eb.Agrees g) (callback : κ) (context : γ)
    (mask : EventMask) : EventBase.Agrees
      { mask := eb.mask.or mask
        readCb := if mask.read then some callback else eb.readCb
        writeCb := if mask.write then some callback else eb.writeCb
        clientData := some context } (g.enabled callback context mask 0) := by
  rw [Ledger.enabled, if_pos rfl]
  refine ⟨fun d hd => ?_, fun d hd => ?_, fun d => ?_, rfl, fun _ _ => rfl, fun d hd => ?_⟩
  · rw [Bool.or_eq_true] at hd
    rcases hd with hi | hm
    · simp [h.mask d hi]
    · simp [hm]
  · by_cases hmask : mask.has d = true
    · simp [hmask]
    · simpa [hmask] using h.known d (by simpa [hmask] using hd)
  · have hold := h.callback d
    cases d with
    | read => by_cases hmask : mask.read <;> simp_all [EventBase.callback, EventMask.has]
    | write => by_cases hmask : mask.write <;> simp_all [EventBase.callback, EventMask.has]
  · simp only [Bool.and_eq_true, Bool.not_eq_true'] at hd
    rcases h.cancelled d hd.1 with hf | hm
    · exact Or.inl hf
    · exact Or.inr (by simp [hm, hd.2])

/-- The kernel refuses new interest, and the slot may have the mask all the same. -/
theorem EventBase.Agrees.refused (h : eb.Agrees g) (callback : κ) (context : γ)
    {mask mask' : EventMask} (hmask : ∀ d, eb.mask.has d = true → mask'.has d = true) {r : ℤ}
    (hr : r ≠ 0) :
    EventBase.Agrees { eb with mask := mask' } (g.enabled callback context mask r) := by
  rw [Ledger.enabled, if_neg hr]
  exact ⟨fun d hd => hmask d (h.mask d hd), h.known, h.callback, h.context, h.last,
    fun _ _ => Or.inl rfl⟩

/-- Interest is cancelled. -/
theorem EventBase.Agrees.disabled (h : eb.Agrees g) (mask : EventMask) :
    EventBase.Agrees { eb with mask := eb.mask.without mask } (g.disabled mask 0) := by
  rw [Ledger.disabled, if_pos rfl]
  refine ⟨fun d hd => ?_, fun d hd => ?_, h.callback, h.context, h.last, fun d hd => ?_⟩
  · simp only [Bool.and_eq_true, Bool.not_eq_true'] at hd
    simp [h.mask d hd.1, hd.2]
  · simp only [Bool.and_eq_true] at hd
    exact h.known d hd.1
  · rw [Bool.or_eq_true] at hd
    rcases hd with hc | hm
    · rcases h.cancelled d hc with hf | hm
      · exact Or.inl hf
      · exact Or.inr (by simp [hm])
    · exact Or.inr (by simp [hm])

theorem EventBase.Agrees.waited (h : eb.Agrees g) : eb.Agrees g.waited :=
  ⟨h.mask, h.known, h.callback, h.context, h.last, fun _ hd => by cases hd⟩

end

/-- The slots agree with the ledgers, and `maxfd` has room for the interest. The interest behind a
pending event is still there, or was cancelled. -/
structure EventRun.Inv (l : EventRun K κ γ) : Prop where
  slot : ∀ fd, (l.evlp.regEvents fd).Agrees (l.ledger fd)
  range : ∀ fd d, (l.ledger fd).interest d = true → 0 ≤ fd ∧ fd ≤ l.evlp.maxfd
  pending : ∀ e ∈ l.phase.pending, e.events.has e.direction = true ∧
    ∀ d, e.events.has d = true →
      (l.ledger e.fd).cancelled d = true ∨ (l.ledger e.fd).interest d = true

omit [EpollCtl K] in
theorem eventRun_inv_init (size : ℤ) (epfd : K) :
    EventRun.Inv ⟨eventInit κ γ size epfd, .blocked, fun _ => .empty⟩ where
  slot fd := by
    refine ⟨fun d h => ?_, fun d h => ?_, fun d => ?_, rfl, fun d h => ?_, fun d h => ?_⟩
    · cases h
    · cases h
    · cases d <;> rfl
    · cases h
    · cases h
  range fd d h := by cases h
  pending e he := by cases he

namespace EventRun

variable {l : EventRun K κ γ}

omit [EpollCtl K] in
/-- One slot changes with its ledger. -/
theorem Inv.of_slot {fd : ℤ} {evlp : EventLoop K κ γ} {eb : EventBase κ γ} {g : Ledger κ γ}
    (h : l.Inv) (hreg : evlp.regEvents = Function.update l.evlp.regEvents fd eb)
    (hslot : eb.Agrees g) (hrange : ∀ d, g.interest d = true → 0 ≤ fd ∧ fd ≤ evlp.maxfd)
    (hother : ∀ fd' d, fd' ≠ fd → (l.ledger fd').interest d = true → fd' ≤ evlp.maxfd)
    (hpending : ∀ d, (l.ledger fd).cancelled d = true ∨ (l.ledger fd).interest d = true →
      g.cancelled d = true ∨ g.interest d = true) :
    Inv { l with evlp := evlp, ledger := Function.update l.ledger fd g } := by
  refine ⟨fun fd' => ?_, fun fd' d hd => ?_, fun e he => ⟨(h.pending e he).1, fun d hd => ?_⟩⟩
  · rcases eq_or_ne fd' fd with rfl | hne
    · simpa [hreg] using hslot
    · simpa [hreg, hne] using h.slot fd'
  · rcases eq_or_ne fd' fd with rfl | hne
    · exact hrange d (by simpa using hd)
    · have hold : (l.ledger fd').interest d = true := by simpa [hne] using hd
      exact ⟨(h.range fd' d hold).1, hother fd' d hne hold⟩
  · have hold := (h.pending e he).2 d hd
    rcases eq_or_ne e.fd fd with heq | hne
    · simpa [heq] using hpending d (heq ▸ hold)
    · simpa [hne] using hold

theorem Inv.enable {fd : ℤ} {callback : κ} {context : γ} {mask : EventMask}
    {r : ℤ × EventLoop K κ γ} (h : l.Inv)
    (hr : eventEnableRw l.evlp fd callback context mask = .ok r) :
    Inv { l with
      evlp := r.2
      ledger := Function.update l.ledger fd
        ((l.ledger fd).enabled callback context mask r.1) } := by
  obtain ⟨hpos, ⟨hfail, mask', hmask, hevlp⟩ | ⟨epfd, rfl⟩⟩ := eventEnableRw_ok hr
  · have hne : r.1 ≠ 0 := by omega
    have hmaxfd : r.2.maxfd = l.evlp.maxfd := by
      rw [hevlp]
      rfl
    have hledger : (l.ledger fd).enabled callback context mask r.1 =
        { l.ledger fd with failed := true } := if_neg hne
    refine h.of_slot (by rw [hevlp]; rfl) ((h.slot fd).refused callback context hmask hne)
      (fun d hd => ?_) (fun fd' d _ hd => ?_) fun d hd => ?_
    · rw [hledger] at hd
      rw [hmaxfd]
      exact h.range fd d hd
    · rw [hmaxfd]
      exact (h.range fd' d hd).2
    · rw [hledger]
      exact hd
  · refine h.of_slot rfl ((h.slot fd).enabled callback context mask)
      (fun _ _ => ⟨hpos, le_max_left _ _⟩)
      (fun fd' d _ hd => (h.range fd' d hd).2.trans (le_max_right _ _)) fun d hd => ?_
    by_cases hmask : mask.has d = true
    · simp [Ledger.enabled, hmask]
    · simpa [Ledger.enabled, hmask] using hd

theorem Inv.disable {fd : ℤ} {mask : EventMask} {r : ℤ × EventLoop K κ γ} (h : l.Inv)
    (hr : eventDisableRw l.evlp fd mask = .ok r) :
    Inv { l with
      evlp := r.2
      ledger := Function.update l.ledger fd ((l.ledger fd).disabled mask r.1) } := by
  rcases eventDisableRw_ok hr with rfl | ⟨epfd, maxfd, rfl, hmaxfd⟩
  · have hself : Function.update l.ledger fd ((l.ledger fd).disabled mask (-1)) = l.ledger :=
      Function.update_eq_self _ _
    simp only [hself]
    exact h
  · refine h.of_slot rfl ((h.slot fd).disabled mask) (fun d hd => ?_) (fun fd' d hne hd => ?_)
      fun d hd => ?_
    · -- a descriptor that keeps interest keeps a mask, so `maxfd` stays
      have hkept : (l.ledger fd).interest d = true ∧ mask.has d = false := by
        simpa [Ledger.disabled] using hd
      have hrange := h.range fd d hkept.1
      rcases hmaxfd with rfl | ⟨-, hnone, -⟩
      · exact hrange
      · refine absurd hnone (ne_eventNone (d := d) ?_)
        simp [(h.slot fd).mask d hkept.1, hkept.2]
    · have hrange := h.range fd' d hd
      rcases hmaxfd with rfl | ⟨hlast, -, hscan⟩
      · exact hrange.2
      · refine (le_lastRegistered hrange.1 ?_ (by omega)).trans hscan.ge
        simp only [EventLoop.setEvent, Function.update_of_ne hne]
        exact ne_eventNone ((h.slot fd').mask d hd)
    · by_cases hmask : mask.has d = true
      · simp [Ledger.disabled, hmask]
      · simpa [Ledger.disabled, hmask] using hd

omit [EpollCtl K] in
theorem Inv.ready {batch : List EpollEvent} (h : l.Inv) (hbatch : BatchOk l.ledger batch) :
    Inv { l with phase := .timers batch, ledger := fun fd => (l.ledger fd).waited } where
  slot fd := (h.slot fd).waited
  range := h.range
  pending e he := by
    obtain ⟨hdir, hread, hwrite⟩ := hbatch.2 e he
    refine ⟨hdir.elim EpollEvent.has_direction EpollEvent.has_direction, fun d hd => Or.inr ?_⟩
    cases d with
    | read => exact hread hd
    | write => exact hwrite hd

omit [EpollCtl K] in
/-- The loop moves on in its batch. -/
theorem Inv.phase {phase : LoopPhase} (h : l.Inv)
    (hsub : ∀ e ∈ phase.pending, e ∈ l.phase.pending) : Inv { l with phase := phase } :=
  ⟨h.slot, h.range, fun e he => h.pending e (hsub e he)⟩

theorem Inv.step {l' : EventRun K κ γ} {a : EventLabel κ γ} (h : l.Inv)
    (hst : EventStep l a l') : l'.Inv := by
  cases hst with
  | enable hr => exact h.enable hr
  | disable hr => exact h.disable hr
  | ready hphase hbatch => exact h.ready hbatch
  | timersDone hphase =>
    refine h.phase fun e he => ?_
    rw [hphase]
    exact he
  | event hphase hcb =>
    refine h.phase fun e he => ?_
    rw [hphase]
    exact List.mem_cons_of_mem _ he
  | done hphase => exact h.phase fun e he => by cases he

theorem inv_of_reach (h : (eventSystem K κ γ).Reach l) : l.Inv :=
  h.invariant (by rintro _ ⟨size, epfd, rfl⟩; exact eventRun_inv_init size epfd)
    fun _ _ _ h hst => h.step hst

/-- `event_wait` calls a callback on a context for an event : the mask still has the direction, and
these are the ones registered last. -/
structure Proper (l : EventRun K κ γ) (e : EpollEvent) (callback : κ) (context : γ) : Prop where
  call : eventCallback l.evlp e = .ok (some (some callback, some context))
  mask : (l.evlp.regEvents e.fd).mask.has e.direction = true
  callback : ((l.ledger e.fd).registered e.direction).map Prod.fst = some callback
  context : (l.ledger e.fd).context = some context

end EventRun

omit [EpollCtl K] in
/-- What `event_wait` calls for an event with a direction. -/
theorem eventCallback_eq {evlp : EventLoop K κ γ} {e : EpollEvent} (hpos : 0 ≤ e.fd)
    (hmax : e.fd ≤ evlp.maxfd) (hdir : e.events.has e.direction = true) :
    eventCallback evlp e = .ok (some ((evlp.regEvents e.fd).callback e.direction,
      (evlp.regEvents e.fd).clientData)) := by
  unfold eventCallback
  rw [if_neg (by omega)]
  unfold EpollEvent.direction at hdir ⊢
  by_cases hin : e.events.epollin = true
  · simp only [hin, if_true]
    rfl
  · simp only [hin] at hdir ⊢
    have hout : e.events.epollout = true := hdir
    simp only [hout, if_true]
    rfl

/-- An event that comes next is dispatched properly, without a panic, if its direction was not
cancelled since `epoll_wait` returned. Unless a call of `event_enable_rw` for its descriptor failed
in the meantime, only then. The context is the one that came with the callback if and only if none
has come with the other direction since. -/
theorem dispatch_proper {l : EventRun K κ γ} (h : (eventSystem K κ γ).Reach l) {e : EpollEvent}
    {batch : List EpollEvent} (hphase : l.phase = .events (e :: batch)) :
    ((l.ledger e.fd).cancelled e.direction = false →
      ∃ callback context, l.Proper e callback context) ∧
    ((l.ledger e.fd).failed = false → ((∃ callback context, l.Proper e callback context) ↔
      (l.ledger e.fd).cancelled e.direction = false)) ∧
    ∀ callback context, l.Proper e callback context →
      ((l.ledger e.fd).registered e.direction = some (callback, context) ↔
        ((l.ledger e.fd).registered e.direction).map Prod.snd = (l.ledger e.fd).context) := by
  have hinv := EventRun.inv_of_reach h
  have hslot := hinv.slot e.fd
  have hmem : e ∈ l.phase.pending := by
    rw [hphase]
    exact List.mem_cons_self
  obtain ⟨hdir, hpending⟩ := hinv.pending e hmem
  have hproper : (l.ledger e.fd).cancelled e.direction = false →
      ∃ callback context, l.Proper e callback context := by
    intro hcancelled
    have hinterest : (l.ledger e.fd).interest e.direction = true := by
      rcases hpending _ hdir with hc | hi
      · rw [hcancelled] at hc
        cases hc
      · exact hi
    obtain ⟨hpos, hmax⟩ := hinv.range _ _ hinterest
    have hknown := hslot.known _ hinterest
    obtain ⟨⟨callback, context⟩, hreg⟩ := Option.isSome_iff_exists.1 hknown
    obtain ⟨context', hcontext⟩ := Option.isSome_iff_exists.1 (hslot.last _ hknown)
    refine ⟨callback, context', ?_, hslot.mask _ hinterest, by rw [hreg]; rfl, hcontext⟩
    rw [eventCallback_eq hpos hmax hdir, hslot.callback, hslot.context, hreg, hcontext]
    rfl
  refine ⟨hproper, fun hfailed => ⟨?_, hproper⟩, fun callback context hp => ?_⟩
  · rintro ⟨callback, context, hp⟩
    by_contra hc
    rcases hslot.cancelled _ (by simpa using hc) with hf | hm
    · rw [hfailed] at hf
      cases hf
    · rw [hp.mask] at hm
      cases hm
  · obtain ⟨⟨callback', context'⟩, hreg, rfl⟩ := Option.map_eq_some_iff.1 hp.callback
    rw [hreg, hp.context]
    simp

/-- A step of the loop, if it is one and does not panic. -/
def eventCall (l : EventRun K κ γ) : EventLabel κ γ → Option (EventRun K κ γ)
  | .enable fd callback context mask =>
    (eventEnableRw l.evlp fd callback context mask).toOption.map fun r =>
      { l with
        evlp := r.2
        ledger := Function.update l.ledger fd
          ((l.ledger fd).enabled callback context mask r.1) }
  | .disable fd mask => (eventDisableRw l.evlp fd mask).toOption.map fun r =>
    { l with
      evlp := r.2
      ledger := Function.update l.ledger fd ((l.ledger fd).disabled mask r.1) }
  | .ready batch =>
    if l.phase = .blocked ∧ BatchOk l.ledger batch then
      some { l with phase := .timers batch, ledger := fun fd => (l.ledger fd).waited }
    else none
  | .timersDone =>
    match l.phase with
    | .timers batch => some { l with phase := .events batch }
    | _ => none
  | .event =>
    match l.phase with
    | .events (e :: batch) =>
      match eventCallback l.evlp e with
      | .ok (some (some _, some _)) => some { l with phase := .events batch }
      | _ => none
    | _ => none
  | .done => if l.phase = .events [] then some { l with phase := .blocked } else none

theorem step_of_eventCall {l l' : EventRun K κ γ} {a : EventLabel κ γ}
    (h : eventCall l a = some l') : (eventSystem K κ γ).step l a l' := by
  cases a with
  | enable fd callback context mask =>
    obtain ⟨r, hr, rfl⟩ := Option.map_eq_some_iff.1 h
    exact .enable (toOption_eq_some hr)
  | disable fd mask =>
    obtain ⟨r, hr, rfl⟩ := Option.map_eq_some_iff.1 h
    exact .disable (toOption_eq_some hr)
  | ready batch =>
    simp only [eventCall] at h
    split at h
    · rename_i hready
      obtain rfl := Option.some.inj h
      exact .ready hready.1 hready.2
    · cases h
  | timersDone =>
    simp only [eventCall] at h
    split at h
    · obtain rfl := Option.some.inj h
      exact .timersDone ‹_›
    · cases h
  | event =>
    simp only [eventCall] at h
    split at h
    · split at h
      · obtain rfl := Option.some.inj h
        exact .event ‹_› ‹_›
      · cases h
    · cases h
  | done =>
    simp only [eventCall] at h
    split at h
    · obtain rfl := Option.some.inj h
      exact .done ‹_›
    · cases h

/-- A run from a loop for `size` descriptors, over a kernel that does not fail. -/
def eventCalls (size : ℤ) (as : List (EventLabel ℕ ℕ)) : Option (EventRun Unit ℕ ℕ) :=
  as.foldlM eventCall ⟨eventInit ℕ ℕ size (), .blocked, fun _ => .empty⟩

theorem run_of_eventCalls {size : ℤ} {as : List (EventLabel ℕ ℕ)} {l : EventRun Unit ℕ ℕ}
    (h : eventCalls size as = some l) :
    ∃ tr, (eventSystem Unit ℕ ℕ).Run tr l ∧ tr.map (fun x => x.2.1) = as := by
  obtain ⟨tr, hp, hmap⟩ := LTS.Path.of_foldlM (S := eventSystem Unit ℕ ℕ)
    (fun _ _ _ => step_of_eventCall) h
  exact ⟨tr, ⟨_, ⟨size, (), rfl⟩, hp⟩, hmap⟩

/-- Two descriptors are ready, and the callback of the first leaves the second alone. -/
theorem dispatch_proper_second : ∃ l tr, (eventSystem Unit ℕ ℕ).Run tr l ∧
    tr.map (fun x => x.2.1) = [.enable 5 0 0 eventRead, .enable 6 1 1 eventRead,
      .ready [⟨5, ⟨true, false⟩⟩, ⟨6, ⟨true, false⟩⟩], .timersDone, .event,
      .disable 5 eventRead] ∧
    ∃ callback context, l.Proper ⟨6, ⟨true, false⟩⟩ callback context := by
  have hrun : (eventCalls 1024 [.enable 5 0 0 eventRead, .enable 6 1 1 eventRead,
      .ready [⟨5, ⟨true, false⟩⟩, ⟨6, ⟨true, false⟩⟩], .timersDone, .event,
      .disable 5 eventRead]).any (fun l => l.phase = .events [⟨6, ⟨true, false⟩⟩] ∧
        (l.ledger 6).cancelled .read = false) = true := by
    decide +kernel
  obtain ⟨l, hl, hobs⟩ := (Option.any_eq_true _ _).1 hrun
  obtain ⟨hphase, hcancelled⟩ := of_decide_eq_true hobs
  obtain ⟨tr, htr, hmap⟩ := run_of_eventCalls hl
  exact ⟨l, tr, htr, hmap, (dispatch_proper ⟨tr, htr⟩ hphase).1 hcancelled⟩

/-- Two descriptors are ready, and the callback of the first cancels the interest in the second. If
the second is the highest one, `event_wait` panics, and if not it calls its callback. -/
theorem stale_dispatch :
    (∃ l tr, (eventSystem Unit ℕ ℕ).Run tr l ∧
      tr.map (fun x => x.2.1) = [.enable 5 0 0 eventRead, .enable 6 1 1 eventRead,
        .ready [⟨5, ⟨true, false⟩⟩, ⟨6, ⟨true, false⟩⟩], .timersDone, .event,
        .disable 6 eventRead] ∧
      l.phase = .events [⟨6, ⟨true, false⟩⟩] ∧
      eventCallback l.evlp ⟨6, ⟨true, false⟩⟩ = .error (.badFileDescriptor 6)) ∧
    ∃ l tr, (eventSystem Unit ℕ ℕ).Run tr l ∧
      tr.map (fun x => x.2.1) = [.enable 5 0 0 eventRead, .enable 6 1 1 eventRead,
        .ready [⟨6, ⟨true, false⟩⟩, ⟨5, ⟨true, false⟩⟩], .timersDone, .event,
        .disable 5 eventRead] ∧
      l.phase = .events [⟨5, ⟨true, false⟩⟩] ∧
      eventCallback l.evlp ⟨5, ⟨true, false⟩⟩ = .ok (some (some 0, some 0)) ∧
      (l.evlp.regEvents 5).mask.has .read = false := by
  constructor
  · have hrun : (eventCalls 1024 [.enable 5 0 0 eventRead, .enable 6 1 1 eventRead,
        .ready [⟨5, ⟨true, false⟩⟩, ⟨6, ⟨true, false⟩⟩], .timersDone, .event,
        .disable 6 eventRead]).any (fun l => l.phase = .events [⟨6, ⟨true, false⟩⟩] ∧
          l.evlp.maxfd = 5) = true := by
      decide +kernel
    obtain ⟨l, hl, hobs⟩ := (Option.any_eq_true _ _).1 hrun
    obtain ⟨hphase, hmaxfd⟩ := of_decide_eq_true hobs
    obtain ⟨tr, htr, hmap⟩ := run_of_eventCalls hl
    refine ⟨l, tr, htr, hmap, hphase, ?_⟩
    unfold eventCallback
    rw [hmaxfd]
    rfl
  · have hrun : (eventCalls 1024 [.enable 5 0 0 eventRead, .enable 6 1 1 eventRead,
        .ready [⟨6, ⟨true, false⟩⟩, ⟨5, ⟨true, false⟩⟩], .timersDone, .event,
        .disable 5 eventRead]).any (fun l => l.phase = .events [⟨5, ⟨true, false⟩⟩] ∧
          (eventCallback l.evlp ⟨5, ⟨true, false⟩⟩).toOption = some (some (some 0, some 0)) ∧
          (l.evlp.regEvents 5).mask.has .read = false) = true := by
      decide +kernel
    obtain ⟨l, hl, hobs⟩ := (Option.any_eq_true _ _).1 hrun
    obtain ⟨hphase, hcall, hmask⟩ := of_decide_eq_true hobs
    obtain ⟨tr, htr, hmap⟩ := run_of_eventCalls hl
    exact ⟨l, tr, htr, hmap, hphase, toOption_eq_some hcall, hmask⟩

end Nowra
