import Nowra.Account

/-!
# A batch of events

A call of `event_wait` takes a batch of events from `epoll_wait`, dispatches the timers that are
due, and then the events in order. A callback may change what the next ones find : it may
disable the interest of a descriptor whose event is still to come.

`master_spawn` checks that the limit allows a child, that none is available and that the service
is not throttled, and panics otherwise. When a connection event reaches it, the checks pass if
and only if the descriptor still has read interest (`spawn_checks_iff`). `event_wait` does not
look, so an event that has become stale aborts the master (`stale_event_panics`).
-/

namespace Nowra

open World

/-- Where the loop is : before `epoll_wait` returns, in the dispatch of timers, or in the
dispatch of events, with the events to come. -/
inductive LoopPhase
  | blocked
  | timers (batch : List EpollEvent)
  | events (batch : List EpollEvent)
  deriving DecidableEq

/-- The master in its event loop. -/
structure EventWait where
  family : Family
  phase : LoopPhase

/-- The events to come. -/
def LoopPhase.pending : LoopPhase → List EpollEvent
  | .blocked => []
  | .timers batch | .events batch => batch

/-- What happens to the loop. -/
inductive LoopLabel
  /-- Between two calls of `event_wait`, a service is started or children are reaped. -/
  | call (op : MasterOp)
  /-- `epoll_wait` returns, and the clock reads `now`. -/
  | ready (batch : List EpollEvent) (now : ℤ)
  /-- The first timer is due. -/
  | timer
  /-- No timer is due. -/
  | timersDone
  /-- The next event, with what `fork` and `read` return in its callback. -/
  | event (fork : Option MasterPid) (read : StatusRead) (now : ℤ)
  /-- The last event is done. -/
  | done

/-- Each descriptor is reported once, for directions that have interest. -/
def ReadyOk (w : World) (batch : List EpollEvent) : Prop :=
  (batch.map (·.fd)).Nodup ∧ ∀ e ∈ batch,
    (e.events.epollin = true → w.interest e.fd = true) ∧
    (e.events.epollout = true → (w.masterEl.regEvents e.fd).mask.write = true)

/-- Call a callback on a descriptor. -/
def masterCallback (w : World) (cb : Callback) (fd : ℤ) (s : ServPtr) (fork : Option MasterPid)
    (read : StatusRead) (now : ℤ) : Except Panic World :=
  match cb with
  | .masterAvailEvent => masterAvailEvent w fd s fork now
  | .masterStatusEvent => masterStatusEvent w fd s read

/-- What `fork` returns in a callback, if the callback gets to it. -/
def callbackFork (w : World) (cb : Callback) (fd : ℤ) (s : ServPtr) (fork : Option MasterPid) :
    Option MasterPid :=
  match cb with
  | .masterAvailEvent => availEventFork (w.serv s) fd fork
  | .masterStatusEvent => none

/-- One step of the loop. -/
inductive LoopStep : EventWait → LoopLabel → EventWait → Prop
  | start {m m' : Family} {ent : MasterEnt} {fds : ServFds}
      (h : familySystem.step m (.start ent fds) m') :
      LoopStep ⟨m, .blocked⟩ (.call (.start ent fds)) ⟨m', .blocked⟩
  | reapChild {m m' : Family} {dead : List Waited}
      (h : familySystem.step m (.reapChild dead) m') :
      LoopStep ⟨m, .blocked⟩ (.call (.reapChild dead)) ⟨m', .blocked⟩
  | ready {m : Family} {batch : List EpollEvent} {now : ℤ} (h : ReadyOk m.world batch) :
      LoopStep ⟨m, .blocked⟩ (.ready batch now)
        ⟨{ m with world := m.world.clocked now }, .timers batch⟩
  | timer {m : Family} {w' : World} {batch : List EpollEvent}
      (hdue : (eventFirstTimer m.world.timers).isSome)
      (h : masterTimer m.world m.world.timers.present = .ok w') :
      LoopStep ⟨m, .timers batch⟩ .timer ⟨{ m with world := w' }, .timers batch⟩
  | timersDone {m : Family} {batch : List EpollEvent}
      (hdue : eventFirstTimer m.world.timers = none) :
      LoopStep ⟨m, .timers batch⟩ .timersDone ⟨m, .events batch⟩
  | event {m : Family} {w' : World} {e : EpollEvent} {batch : List EpollEvent} {cb : Callback}
      {s : ServPtr} {fork : Option MasterPid} {read : StatusRead} {now : ℤ}
      (hcb : eventCallback m.world.masterEl e = .ok (some (some cb, some s)))
      (hfork : ∀ pid, callbackFork m.world cb e.fd s fork = some pid → pid ∉ m.kids)
      (h : masterCallback m.world cb e.fd s fork read now = .ok w') :
      LoopStep ⟨m, .events (e :: batch)⟩ (.event fork read now)
        ⟨⟨w', kidsAfter m.kids (callbackFork m.world cb e.fd s fork)⟩, .events batch⟩
  | noEvent {m : Family} {e : EpollEvent} {batch : List EpollEvent} {fork : Option MasterPid}
      {read : StatusRead} {now : ℤ} (hcb : eventCallback m.world.masterEl e = .ok none) :
      LoopStep ⟨m, .events (e :: batch)⟩ (.event fork read now) ⟨m, .events batch⟩
  | done {m : Family} : LoopStep ⟨m, .events []⟩ .done ⟨m, .blocked⟩

/-- The master in its event loop, from its start, without a configuration reload. -/
def eventWaitSystem : LTS EventWait LoopLabel where
  init l := l = ⟨⟨masterInit, ∅⟩, .blocked⟩
  step := LoopStep

/-! ## The event table -/

/-- The table leads from a listen descriptor to its service, and the monitors of the services
that were started are armed and honest. -/
structure World.Wired (w : World) : Prop where
  fds : w.FdsOk
  started : ∀ s, 0 ≤ (w.serv s).listenFd → s < w.nextServ ∧ 0 < (w.serv s).listenFd
  view : ∀ s, 0 ≤ (w.serv s).listenFd → (w.view s).Armed ∧ (w.view s).Honest
  slot : ∀ fd s, (w.masterEl.regEvents fd).readCb = some .masterAvailEvent →
    (w.masterEl.regEvents fd).clientData = some s → 0 ≤ fd ∧ (w.serv s).listenFd = fd
  write : ∀ fd, (w.masterEl.regEvents fd).writeCb = none

theorem wired_init : masterInit.Wired where
  fds := fdsOk_init
  started s h := absurd h (by simp [masterInit, masterServNone])
  view s h := absurd h (by simp [masterInit, masterServNone])
  slot fd s h := by simp [masterInit, eventInit] at h
  write fd := rfl

theorem World.Wired.acts {w w' : World} (h : w.Wired) (ha : w.ActsAll w') : w'.Wired where
  fds := ha.fdsOk h.fds
  started s hs := by
    rw [ha.listenFd] at hs ⊢
    rw [ha.nextServ]
    exact h.started s hs
  view s hs := by
    rw [ha.listenFd] at hs
    obtain ⟨harmed, hhonest⟩ := h.view s hs
    have hsteps := ha.steps h.fds s hs
    exact ⟨hsteps.armed harmed, hsteps.honest hhonest⟩
  slot fd s hcb hctx := by
    rw [ha.listenFd]
    rcases (ha.slot fd).read with ⟨hcb', hctx'⟩ | ⟨t, hpos, ht, -, hctx'⟩
    · exact h.slot fd s (hcb'.symm.trans hcb) (hctx'.symm.trans hctx)
    · obtain rfl := Option.some.inj (hctx'.symm.trans hctx)
      exact ⟨hpos, ht⟩
  write fd := (ha.slot fd).write.trans (h.write fd)

theorem World.Wired.start {w w' : World} {ent : MasterEnt} {fds : ServFds} (h : w.Wired)
    (hun : w.Unused fds) (hst : w.Started w' ent fds) : w'.Wired := by
  refine ⟨hst.fdsOk hun h.fds, fun s hs => ?_, fun s hs => ?_, fun fd s hcb hctx => ?_,
    fun fd => ?_⟩
  · rw [hst.nextServ]
    rcases eq_or_ne s w.nextServ with rfl | hne
    · rw [hst.serv_self]
      exact ⟨Nat.lt_succ_self _, lt_of_le_of_ne hst.listenFd hun.listen.1.symm⟩
    · rw [hst.serv_of_ne hne] at hs ⊢
      exact ⟨(h.started s hs).1.trans (Nat.lt_succ_self _), (h.started s hs).2⟩
  · rcases eq_or_ne s w.nextServ with rfl | hne
    · rw [hst.view_self]
      have hspare : (0 : ℤ) ≤ 0 ∧ masterLimitOk ent.maxProc 0 = true :=
        ⟨le_rfl, limitOk_zero ent.maxProc_nonneg⟩
      exact ⟨fun _ => ⟨fun _ => hspare, fun _ => rfl⟩, fun hi => ⟨rfl, hi⟩⟩
    · rw [hst.serv_of_ne hne] at hs
      rw [hst.view_of_ne hun hne]
      exact h.view s hs
  · -- a slot that has not changed belongs to a service that was there before
    have hold : w'.masterEl.regEvents fd = w.masterEl.regEvents fd →
        0 ≤ fd ∧ (w'.serv s).listenFd = fd := by
      intro he
      rw [he] at hcb hctx
      obtain ⟨hpos, hlisten⟩ := h.slot fd s hcb hctx
      have hne : s ≠ w.nextServ := (h.started s (hlisten ▸ hpos)).1.ne
      exact ⟨hpos, by rw [hst.serv_of_ne hne, hlisten]⟩
    rcases eq_or_ne fd fds.listenFd with rfl | hl
    · have hslot := hst.listen
      split at hslot
      · rw [hslot] at hctx
        obtain rfl := Option.some.inj hctx
        exact ⟨hst.listenFd, by rw [hst.serv_self]⟩
      · exact hold hslot
    rcases eq_or_ne fd fds.status.1 with rfl | hs
    · have hslot := hst.status
      split at hslot
      · rw [hslot] at hcb
        cases hcb
      · exact hold hslot
    · exact hold (hst.reg fd hl hs)
  · rcases eq_or_ne fd fds.listenFd with rfl | hl
    · rw [hst.listen]
      split <;> exact h.write _
    rcases eq_or_ne fd fds.status.1 with rfl | hs
    · rw [hst.status]
      split <;> exact h.write _
    · rw [hst.reg fd hl hs]
      exact h.write fd

/-- The event of a throttled service disables the interest and keeps the rest. -/
theorem World.Wired.deafen {w w' : World} {s : ServPtr} (h : w.Wired)
    (hthr : (w.serv s).flags.throttle = true) (heq : w' = { w with masterEl := w'.masterEl })
    (hset : w.masterEl.SlotSet w'.masterEl (w.serv s).listenFd
      { w.masterEl.regEvents (w.serv s).listenFd with
        mask := (w.masterEl.regEvents (w.serv s).listenFd).mask.without eventRead }) :
    w'.Wired ∧ ∀ t, (w.serv t).listenFd ≠ (w.serv s).listenFd → w'.view t = w.view t := by
  have hserv : w'.serv = w.serv := (congrArg World.serv heq :)
  have hnext : w'.nextServ = w.nextServ := (congrArg World.nextServ heq :)
  have hother : ∀ t, (w.serv t).listenFd ≠ (w.serv s).listenFd → w'.view t = w.view t := by
    intro t hne
    unfold World.view World.interest
    rw [hserv, hset.of_ne hne, hset.size]
  have hkept : ∀ fd, w.SlotKept w' fd := fun fd => by
    have hk : w.SlotKept { w with masterEl := w'.masterEl } fd := .of_without hset
    exact ⟨hk.write, hk.read⟩
  refine ⟨⟨⟨hserv ▸ h.fds.listen, hserv ▸ h.fds.status⟩, ?_, fun t ht => ?_,
    fun fd t hcb hctx => ?_, fun fd => (hkept fd).write.trans (h.write fd)⟩, hother⟩
  · rw [hserv, hnext]
    exact h.started
  · rw [hserv] at ht
    obtain ⟨harmed, hhonest⟩ := h.view t ht
    by_cases hne : (w.serv t).listenFd = (w.serv s).listenFd
    · obtain rfl := h.fds.listen s t (hne ▸ ht) hne
      have hoff : (w'.view t).interest = false := by
        by_cases hin : (w.serv t).listenFd < w.masterEl.size
        · simp [World.view, World.interest, hserv, hset.self hin, eventRead]
        · simp [World.view, World.interest, hserv, hset.size, hin]
      have hthr' : (w'.view t).throttled = true := by
        simp only [World.view, hserv, hthr]
      exact ⟨fun hf => by simp [hthr'] at hf, fun hi => by simp [hoff] at hi⟩
    · rw [hother t hne]
      exact ⟨harmed, hhonest⟩
  · rw [hserv]
    rcases (hkept fd).read with ⟨hcb', hctx'⟩ | ⟨u, hpos, hu, -, hctx'⟩
    · exact h.slot fd t (hcb'.symm.trans hcb) (hctx'.symm.trans hctx)
    · obtain rfl := Option.some.inj (hctx'.symm.trans hctx)
      exact ⟨hpos, hu⟩

/-- A callback of the master is one for reads, on a descriptor in range. -/
theorem World.Wired.callback {w : World} {e : EpollEvent} {cb : Callback} {s : ServPtr}
    (h : w.Wired) (hcb : eventCallback w.masterEl e = .ok (some (some cb, some s))) :
    0 ≤ e.fd ∧ e.events.epollin = true ∧ (w.masterEl.regEvents e.fd).readCb = some cb ∧
      (w.masterEl.regEvents e.fd).clientData = some s := by
  unfold eventCallback at hcb
  split at hcb
  · cases hcb
  rename_i hrange
  simp only at hcb
  split at hcb
  · rename_i hin
    obtain ⟨hread, hctx⟩ := Prod.mk.inj (Option.some.inj (Except.ok.inj hcb))
    exact ⟨not_lt.1 fun hneg => hrange (Or.inl hneg), hin, hread, hctx⟩
  split at hcb
  · have hwrite := (Prod.mk.inj (Option.some.inj (Except.ok.inj hcb))).1
    rw [h.write] at hwrite
    cases hwrite
  · cases Except.ok.inj hcb

/-! ## The loop -/

/-- A monitor whose event is to come : the flag agrees with the interest. -/
def World.Ready (w : World) (fd : ℤ) : Prop :=
  ∀ s, 0 ≤ fd → (w.serv s).listenFd = fd → (w.view s).Agreed ∧ (w.view s).inTable = true

theorem World.Ready.acts {w w' : World} {fd : ℤ} (h : w.Ready fd) (hw : w.Wired)
    (ha : w.ActsAll w') : w'.Ready fd := by
  intro s hpos hs
  rw [ha.listenFd] at hs
  obtain ⟨hagreed, hin⟩ := h s hpos hs
  have hsteps := ha.steps hw.fds s (hs ▸ hpos)
  exact ⟨hsteps.agreed hagreed hin, hsteps.inTable.trans hin⟩

/-- The books are in order, the table is wired, and a listen descriptor whose event is to come
has interest if and only if its service has the flag. -/
structure EventWait.Inv (l : EventWait) : Prop where
  books : l.family.Books
  wired : l.family.world.Wired
  nodup : (l.phase.pending.map (·.fd)).Nodup
  ready : ∀ e ∈ l.phase.pending, e.events.epollin = true → l.family.world.Ready e.fd

theorem eventWait_inv_init : EventWait.Inv ⟨⟨masterInit, ∅⟩, .blocked⟩ :=
  ⟨family_books_init, wired_init, List.nodup_nil, by simp [LoopPhase.pending]⟩

/-- What acts on the monitors and keeps the books keeps the invariant. -/
theorem EventWait.Inv.acts {l l' : EventWait} (h : l.Inv)
    (hacc : l'.family.world.Account l'.family.kids)
    (hlim : l.family.world.Limited → l'.family.world.Limited)
    (ha : l.family.world.ActsAll l'.family.world)
    (hsub : l'.phase.pending.Sublist l.phase.pending) : l'.Inv where
  books := h.books.of_keeps hacc hlim ha.toKeeps
  wired := h.wired.acts ha
  nodup := h.nodup.sublist (hsub.map _)
  ready e he hin := (h.ready e (hsub.subset he) hin).acts h.wired ha

/-- The event of a listen descriptor keeps the invariant for the events after it. -/
theorem EventWait.Inv.availEvent {m : Family} {w' : World} {e : EpollEvent}
    {batch : List EpollEvent} {s : ServPtr} {fork : Option MasterPid} {now : ℤ}
    (h : EventWait.Inv ⟨m, .events (e :: batch)⟩)
    (hfork : ∀ pid, availEventFork (m.world.serv s) e.fd fork = some pid → pid ∉ m.kids)
    (hs : s < m.world.nextServ) (hfd : (m.world.serv s).listenFd = e.fd)
    (hexec : masterAvailEvent m.world e.fd s fork now = .ok w') :
    EventWait.Inv ⟨⟨w', kidsAfter m.kids (availEventFork (m.world.serv s) e.fd fork)⟩,
      .events batch⟩ := by
  obtain ⟨hacc, hlim⟩ := (masterAvailEvent_books h.books.account hs hfork).ok _ hexec
  have hsub : batch.Sublist (e :: batch) := List.sublist_cons_self e batch
  obtain ⟨-, rfl⟩ | ⟨-, hthr, heq, hset⟩ | ⟨-, -, hspawn⟩ := masterAvailEvent_ok hexec
  · exact h.acts hacc hlim (.refl _) hsub
  · obtain ⟨hwired, hother⟩ := h.wired.deafen hthr heq hset
    have hexec' : masterExec m.world (.availEvent s fork now) = .ok w' := by
      simpa only [masterExec, hfd] using hexec
    have hserv : w'.serv = m.world.serv := (congrArg World.serv heq :)
    refine ⟨h.books.of_keeps hacc hlim (masterExec_keeps hexec' nofun), hwired,
      (List.nodup_cons.1 h.nodup).2, fun e' he' hin t hpos ht => ?_⟩
    -- the descriptor of a later event is another one
    have hne : e'.fd ≠ e.fd := fun he =>
      (List.nodup_cons.1 h.nodup).1 (List.mem_map.2 ⟨e', he', he⟩)
    simp only [hserv] at ht
    rw [hother t (by rw [ht, hfd]; exact hne)]
    exact h.ready e' (List.mem_cons_of_mem _ he') hin t hpos ht
  · exact h.acts hacc hlim (masterSpawn_acts hspawn).all hsub

theorem EventWait.Inv.step {l l' : EventWait} {a : LoopLabel} (h : l.Inv)
    (hst : eventWaitSystem.step l a l') : l'.Inv := by
  cases hst with
  | @start m m' ent fds hst =>
    have hexec := hst.2.2.1
    have hstarted := masterConfigNew_ok hexec hst.1.read.2.2
    exact ⟨h.books.step hst, h.wired.start hst.1 hstarted, List.nodup_nil,
      by simp [LoopPhase.pending]⟩
  | @reapChild m m' dead hst =>
    exact ⟨h.books.step hst, h.wired.acts (masterReapChild_acts hst.2.2.1), List.nodup_nil,
      by simp [LoopPhase.pending]⟩
  | @ready m batch now hready =>
    refine ⟨h.books.of_keeps (h.books.account.of_same (clocked_sameBooks _ now))
      (clocked_sameBooks _ now).limited (clocked_acts _ now).toKeeps,
      h.wired.acts (clocked_acts _ now), hready.1, fun e he hin s hpos hs => ?_⟩
    obtain ⟨-, hhonest⟩ := h.wired.view s (hs ▸ hpos)
    have hinterest : (m.world.view s).interest = true := by
      have hi := (hready.2 e he).1 hin
      rw [← hs] at hi
      exact hi
    exact ⟨⟨fun _ => hinterest, fun _ => (hhonest hinterest).1⟩, (hhonest hinterest).2⟩
  | @timer m w' batch hdue hexec =>
    have hsame := (masterTimer_books _ _).ok _ hexec
    exact h.acts (h.books.account.of_same hsame) hsame.limited
      (masterTimer_acts hexec) (List.Sublist.refl _)
  | timersDone hdue => exact ⟨h.books, h.wired, h.nodup, h.ready⟩
  | @event m w' e batch cb s fork read now hcb hfork hexec =>
    obtain ⟨hpos, hin, hread, hctx⟩ := h.wired.callback hcb
    cases cb with
    | masterAvailEvent =>
      have hfd := (h.wired.slot e.fd s hread hctx).2
      exact h.availEvent hfork (h.wired.started s (hfd ▸ hpos)).1 hfd hexec
    | masterStatusEvent =>
      obtain ⟨hacc, hlim⟩ := (masterStatusEvent_books h.books.account).ok _ hexec
      exact h.acts hacc hlim (masterStatusEvent_acts hexec).all
        (List.sublist_cons_self e batch)
  | @noEvent m e batch fork read now hcb =>
    exact h.acts h.books.account id (.refl _)
      (List.sublist_cons_self e batch)
  | done => exact ⟨h.books, h.wired, List.nodup_nil, by simp [LoopPhase.pending]⟩

theorem EventWait.inv_of_reach {l : EventWait} (h : eventWaitSystem.Reach l) : l.Inv :=
  h.invariant (by rintro _ rfl; exact eventWait_inv_init) fun _ _ _ h hst => h.step hst

/-- When a connection event reaches `master_spawn`, the checks of `master_spawn` pass if and
only if the descriptor still has read interest. -/
theorem spawn_checks_iff {l : EventWait} (h : eventWaitSystem.Reach l) {e : EpollEvent}
    {batch : List EpollEvent} {s : ServPtr} (hphase : l.phase = .events (e :: batch))
    (hcb : eventCallback l.family.world.masterEl e =
      .ok (some (some .masterAvailEvent, some s)))
    (hthr : (l.family.world.serv s).flags.throttle = false) :
    (masterLimitOk (l.family.world.serv s).maxProc (l.family.world.serv s).totalProc = true ∧
      (l.family.world.serv s).availProc = 0 ∧ (l.family.world.serv s).flags.throttle = false) ↔
    (l.family.world.masterEl.regEvents e.fd).mask.read = true := by
  have hinv := EventWait.inv_of_reach h
  obtain ⟨hpos, hin, hread, hctx⟩ := hinv.wired.callback hcb
  have hfd := (hinv.wired.slot e.fd s hread hctx).2
  have hmem : e ∈ l.phase.pending := by rw [hphase]; simp [LoopPhase.pending]
  obtain ⟨hagreed, htable⟩ := hinv.ready e hmem hin s hpos hfd
  obtain ⟨harmed, -⟩ := hinv.wired.view s (hfd ▸ hpos)
  have hcount := hinv.books.account.availProc s
  have hmask : (l.family.world.view s).interest =
      (l.family.world.masterEl.regEvents e.fd).mask.read := by
    have hin : e.fd < l.family.world.masterEl.size := by
      simpa [World.view, hfd] using htable
    simp [World.view, World.interest, hfd, hin]
  rw [← hmask]
  refine Iff.trans ⟨fun hs => ?_, fun hs => ?_⟩ ((harmed hthr).symm.trans hagreed)
  · exact ⟨hs.2.1.le, hs.1⟩
  · have havail : (l.family.world.serv s).availProc ≤ 0 := hs.1
    exact ⟨hs.2, by omega, hthr⟩

instance (w : World) (batch : List EpollEvent) : Decidable (ReadyOk w batch) :=
  inferInstanceAs (Decidable (_ ∧ _))

/-- A step inside the loop, if it is one and its callback does not panic. -/
def eventWaitCall : EventWait → LoopLabel → Option EventWait
  | ⟨m, .blocked⟩, .ready batch now =>
    if ReadyOk m.world batch then some ⟨{ m with world := m.world.clocked now }, .timers batch⟩
    else none
  | ⟨m, .timers batch⟩, .timer =>
    if (eventFirstTimer m.world.timers).isSome then
      (masterTimer m.world m.world.timers.present).toOption.map fun w =>
        ⟨{ m with world := w }, .timers batch⟩
    else none
  | ⟨m, .timers batch⟩, .timersDone =>
    if (eventFirstTimer m.world.timers).isNone then some ⟨m, .events batch⟩ else none
  | ⟨m, .events (e :: batch)⟩, .event fork read now =>
    match eventCallback m.world.masterEl e with
    | .ok (some (some cb, some s)) =>
      if (callbackFork m.world cb e.fd s fork).all (· ∉ m.kids) then
        (masterCallback m.world cb e.fd s fork read now).toOption.map fun w =>
          ⟨⟨w, kidsAfter m.kids (callbackFork m.world cb e.fd s fork)⟩, .events batch⟩
      else none
    | .ok none => some ⟨m, .events batch⟩
    | _ => none
  | ⟨m, .events []⟩, .done => some ⟨m, .blocked⟩
  | _, _ => none

theorem step_of_eventWaitCall {l l' : EventWait} {a : LoopLabel}
    (h : eventWaitCall l a = some l') : eventWaitSystem.step l a l' := by
  unfold eventWaitCall at h
  split at h
  · split at h
    · obtain rfl := Option.some.inj h
      exact .ready ‹_›
    · cases h
  · split at h
    · obtain ⟨w, hw, rfl⟩ := Option.map_eq_some_iff.1 h
      exact .timer ‹_› (toOption_eq_some hw)
    · cases h
  · split at h
    · obtain rfl := Option.some.inj h
      exact .timersDone (Option.isNone_iff_eq_none.1 ‹_›)
    · cases h
  · split at h
    · rename_i m e batch fork read now _ cb s hcb
      split at h
      · rename_i hfork
        obtain ⟨w, hw, rfl⟩ := Option.map_eq_some_iff.1 h
        refine .event hcb (fun pid hpid => ?_) (toOption_eq_some hw)
        simpa [hpid] using hfork
      · cases h
    · obtain rfl := Option.some.inj h
      exact .noEvent ‹_›
    · cases h
  · obtain rfl := Option.some.inj h
    exact .done
  · cases h

/-- What the loop reaches from a start. -/
theorem reach_of_eventWaitCalls {ent : MasterEnt} {fds : ServFds} {as : List LoopLabel}
    {l : EventWait} (hun : masterInit.Unused fds)
    (h : ((masterExec masterInit (.start ent fds)).toOption.bind fun v =>
      as.foldlM eventWaitCall ⟨⟨v, ∅⟩, .blocked⟩) = some l) : eventWaitSystem.Reach l := by
  obtain ⟨v, hv, h⟩ := Option.bind_eq_some_iff.1 h
  obtain ⟨tr, hp, -⟩ := LTS.Path.of_foldlM (S := eventWaitSystem)
    (fun _ _ _ => step_of_eventWaitCall) h
  have hst : familySystem.step ⟨masterInit, ∅⟩ (.start ent fds) ⟨v, ∅⟩ :=
    ⟨hun, MasterOp.kernelOk_of_quiet rfl rfl, toOption_eq_some hv, rfl⟩
  exact ⟨_, _, rfl, hp.cons (.start hst)⟩

/-- The first connection to a service : the interest is there and the checks pass. -/
theorem spawn_checks_iff_first : ∃ l, eventWaitSystem.Reach l ∧
    l.phase = .events [⟨6, ⟨true, false⟩⟩] ∧
    masterLimitOk (l.family.world.serv 0).maxProc (l.family.world.serv 0).totalProc = true ∧
    (l.family.world.serv 0).availProc = 0 := by
  have hrun : ((masterExec masterInit (.start (smtpEnt 1) smtpFds)).toOption.bind fun v =>
      [LoopLabel.ready [⟨6, ⟨true, false⟩⟩] 1000, .timersDone].foldlM eventWaitCall
        ⟨⟨v, ∅⟩, .blocked⟩).any (fun l => l.phase = .events [⟨6, ⟨true, false⟩⟩] ∧
          (eventCallback l.family.world.masterEl ⟨6, ⟨true, false⟩⟩).toOption =
            some (some (some .masterAvailEvent, some 0)) ∧
          (l.family.world.serv 0).flags.throttle = false ∧
          (l.family.world.masterEl.regEvents 6).mask.read = true) = true := by
    decide +kernel
  obtain ⟨l, hl, hobs⟩ := (Option.any_eq_true _ _).1 hrun
  obtain ⟨hphase, hcb, hthr, hmask⟩ := of_decide_eq_true hobs
  have hreach := reach_of_eventWaitCalls smtpFds_unused hl
  obtain ⟨hlimit, havail, -⟩ :=
    (spawn_checks_iff hreach hphase (toOption_eq_some hcb) hthr).2 hmask
  exact ⟨l, hreach, hphase, hlimit, havail⟩

/-- A child reports that it is available, and a connection comes to the same service in the same
batch. The status event disables the interest of the listen descriptor, `event_wait` calls its
callback all the same, and `master_spawn` panics. -/
theorem stale_event_panics : ∃ l, eventWaitSystem.Reach l ∧
    l.phase = .events [⟨6, ⟨true, false⟩⟩] ∧
    eventCallback l.family.world.masterEl ⟨6, ⟨true, false⟩⟩ =
      .ok (some (some .masterAvailEvent, some 0)) ∧
    (l.family.world.serv 0).flags.throttle = false ∧ (l.family.world.serv 0).availProc = 1 ∧
    ∀ now, masterAvailEvent l.family.world 6 0 (some 101) now = .error (.processesAvailable 1) := by
  have hrun : ((masterExec masterInit (.start (smtpEnt 2) smtpFds)).toOption.bind fun v =>
      [LoopLabel.ready [⟨6, ⟨true, false⟩⟩] 1000, .timersDone, .event (some 100) .error 1000, .done,
        .ready [⟨7, ⟨true, false⟩⟩] 1001, .timersDone,
        .event none (.stat ⟨100, masterStatTaken⟩) 1001, .done,
        .ready [⟨7, ⟨true, false⟩⟩, ⟨6, ⟨true, false⟩⟩] 1002, .timersDone,
        .event none (.stat ⟨100, masterStatAvail⟩) 1002].foldlM eventWaitCall
        ⟨⟨v, ∅⟩, .blocked⟩).any (fun l => l.phase = .events [⟨6, ⟨true, false⟩⟩] ∧
          (eventCallback l.family.world.masterEl ⟨6, ⟨true, false⟩⟩).toOption =
            some (some (some .masterAvailEvent, some 0)) ∧
          (l.family.world.serv 0).flags.throttle = false ∧
          (l.family.world.serv 0).availProc = 1 ∧ (l.family.world.serv 0).maxProc = 2 ∧
          (l.family.world.serv 0).totalProc = 1) = true := by
    decide +kernel
  obtain ⟨l, hl, hobs⟩ := (Option.any_eq_true _ _).1 hrun
  obtain ⟨hphase, hcb, hthr, havail, hmax, htotal⟩ := of_decide_eq_true hobs
  refine ⟨l, reach_of_eventWaitCalls smtpFds_unused hl, hphase, toOption_eq_some hcb, hthr, havail,
    fun now => ?_⟩
  simp [masterAvailEvent, masterSpawn, hthr, havail, hmax, htotal, masterLimitOk]
  rfl

end Nowra
