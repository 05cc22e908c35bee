import Nowra.Availability
import Nowra.Dispatch

/-!
# The main loop

`main` reads the configuration file once and then calls `event_wait` for ever. It does not set up
the handler of `SIGCHLD`, and nothing that it calls gets to `master_reap_child` : a child that exits
stays in `master_child_table`, and if it was idle, it stays counted as available.

So the master listens for a service without a living idle child if and only if no child of the
service has died idle, and the children that were ever forked for it are fewer than its limit
(`daemon_watches`).
-/

namespace Nowra

open World

/-! ## After the configuration file -/

/-- The monitor of a service that was just started. -/
structure Monitor.Fresh (m : Monitor) : Prop where
  throttled : m.throttled = false
  avail : m.avail = 0
  total : m.total = 0
  max : 0 ≤ m.max
  listening : m.listening = true
  interest : m.interest = m.inTable

theorem Monitor.Fresh.armed {m : Monitor} (h : m.Fresh) : m.Armed := by
  intro _
  refine iff_of_true h.listening ⟨h.avail.le, ?_⟩
  rw [h.total]
  exact limitOk_zero h.max

theorem Monitor.Fresh.agreed {m : Monitor} (h : m.Fresh) (hin : m.inTable = true) : m.Agreed :=
  iff_of_true h.listening (h.interest.trans hin)

/-- The descriptors of the event table lead to services on the list. -/
structure World.Wiring (w : World) : Prop where
  opened : ∀ s, 0 ≤ (w.serv s).listenFd → s ∈ w.masterHead
  client : ∀ fd s, (w.masterEl.regEvents fd).clientData = some s → s ∈ w.masterHead
  status : ∀ s ∈ w.masterHead, 0 < (w.serv s).statusFd.1

theorem wiring_init : masterInit.Wiring where
  opened s h := absurd h (by simp [masterInit, masterServNone])
  client fd s h := by simp [masterInit, eventInit] at h
  status := by simp [masterInit]

theorem World.Wiring.acts {w w' : World} (h : w.Wiring) (hk : w.Keeps w') : w'.Wiring where
  opened s hs := by
    rw [hk.listenFd] at hs
    rw [hk.head]
    exact h.opened s hs
  client fd s hs := by
    rw [hk.head]
    rcases (hk.slot fd).read with ⟨-, hctx⟩ | ⟨t, hpos, ht, -, hctx⟩
    · exact h.client fd s (hctx.symm.trans hs)
    · obtain rfl := Option.some.inj (hctx.symm.trans hs)
      exact h.opened t (ht ▸ hpos)
  status s hs := by
    rw [hk.head] at hs
    rw [hk.statusFd]
    exact h.status s hs

/-- A new service is on the list, and so is what its slots lead to. -/
theorem World.Wiring.start {w w' : World} {ent : MasterEnt} {fds : ServFds} (h : w.Wiring)
    (hun : w.Unused fds) (hst : w.Started w' ent fds) : w'.Wiring := by
  have hmem : ∀ s, s ∈ w'.masterHead ↔ s = w.nextServ ∨ s ∈ w.masterHead := fun s => by
    rw [hst.head, List.mem_cons]
  refine ⟨fun s hs => ?_, fun fd s hs => ?_, fun s hs => ?_⟩
  · rw [hmem]
    by_cases hne : s = w.nextServ
    · exact Or.inl hne
    · rw [hst.serv_of_ne hne] at hs
      exact Or.inr (h.opened s hs)
  · rw [hmem]
    have hcases : (w'.masterEl.regEvents fd).clientData = some w.nextServ ∨
        (w'.masterEl.regEvents fd).clientData = (w.masterEl.regEvents fd).clientData := by
      rcases eq_or_ne fd fds.listenFd with rfl | hl
      · rw [hst.listen]
        split
        · exact Or.inl rfl
        · exact Or.inr rfl
      rcases eq_or_ne fd fds.status.1 with rfl | hs
      · rw [hst.status]
        split
        · exact Or.inl rfl
        · exact Or.inr rfl
      · exact Or.inr (congrArg EventBase.clientData (hst.reg fd hl hs))
    rcases hcases with he | he
    · exact Or.inl (Option.some.inj (hs.symm.trans he))
    · exact Or.inr (h.client fd s (he.symm.trans hs))
  · by_cases hne : s = w.nextServ
    · rw [hne, hst.serv_self]
      exact hun.read.1
    · rw [hst.serv_of_ne hne]
      exact h.status s (((hmem s).1 hs).resolve_left hne)

theorem World.Wiring.update {w w' : World} {s : ServPtr} {ent : MasterEnt} {status : ℤ × ℤ}
    (h : w.Wiring) (hs : s ∈ w.masterHead) (hun : w.UnusedPipe s status)
    (hup : w.Updated w' s ent status) : w'.Wiring where
  opened t ht := by
    rw [hup.listenFd] at ht
    rw [hup.head]
    exact h.opened t ht
  client fd t ht := by
    rw [hup.head]
    rcases hup.client fd with he | he
    · exact h.client fd t (he.symm.trans ht)
    · obtain rfl := Option.some.inj (he.symm.trans ht)
      exact hs
  status t ht := by
    rw [hup.head] at ht
    rcases eq_or_ne t s with rfl | hne
    · rw [hup.serv_self]
      exact hun.read.1
    · rw [hup.serv_of_ne hne]
      exact h.status t ht

/-- The services are all as they were started. -/
structure World.Configured (w : World) : Prop extends w.Wiring where
  fresh : ∀ s ∈ w.masterHead, (w.view s).Fresh

/-- An entry of the configuration file adds a service, or gives one another limit. -/
theorem World.Configured.entry {m m' : Family} {ent : MasterEnt} {fds : ServFds}
    (h : m.world.Configured) (hm : m.Managed) (hst : reloadSystem.step m (.entry ent fds) m') :
    m'.world.Configured := by
  obtain ⟨hallow, hexec, -⟩ := hst
  rcases masterConfigEnt_cases hallow (ok_of_map_some hexec) with
    ⟨-, hun, hstart⟩ | ⟨s, -, hmem, hun, hw⟩
  · refine ⟨h.toWiring.start hun hstart, fun s hs => ?_⟩
    rw [hstart.head] at hs
    rcases List.mem_cons.1 hs with rfl | hs
    · rw [hstart.view_self]
      exact ⟨rfl, rfl, rfl, ent.maxProc_nonneg, rfl, rfl⟩
    · rw [hstart.view_of_ne hun (hm.head s hs).1.ne]
      exact h.fresh s hs
  · have hup := masterConfigUpdate_ok hw
    refine ⟨h.toWiring.update hmem hun hup, fun t ht => ?_⟩
    rw [hup.head] at ht
    have hpos := (hm.head t ht).2.le
    rcases eq_or_ne t s with rfl | hne
    · rw [hup.view_self hm.fds hun hpos]
      obtain ⟨h1, h2, h3, -, h5, h6⟩ := h.fresh t ht
      exact ⟨h1, h2, h3, ent.maxProc_nonneg, h5, h6⟩
    · rw [hup.view_of_ne hm.fds hun hne hpos]
      exact h.fresh t ht

/-- What `master_config` leaves in `main`. -/
theorem masterConfig_configured {lines : List (MasterEnt × ServFds)} {w : World}
    (h : masterConfig masterInit lines = .ok w) (hfds : ConfigFds lines masterInit) :
    Family.Managed ⟨w, ∅⟩ ∧ w.Configured := by
  obtain ⟨tr, hp, hops⟩ := masterConfig_path ∅ h hfds
  refine (hp.invariant_of (P := fun m => m.Managed ∧ m.world.Configured)
    (C := fun _ op => ∃ ent fds, op = .entry ent fds) ?_ ?_ fun x hx => ?_).1
  · exact ⟨managed_init, wiring_init, by simp [masterInit]⟩
  · rintro m _ m' ⟨hm, hc⟩ ⟨ent, fds, rfl⟩ hst
    exact ⟨(hm.step hst).1, hc.entry hm hst⟩
  · have hop : x.2.1 ∈ tr.map (fun x => x.2.1) := List.mem_map_of_mem hx
    rw [hops] at hop
    obtain ⟨line, -, he⟩ := List.mem_map.1 hop
    exact ⟨line.1, line.2, he.symm⟩

/-! ## The loop -/

/-- `main`, with the children of the master. -/
structure Daemon where
  farm : Farm
  phase : LoopPhase

/-- What happens to the daemon. -/
inductive DaemonOp
  /-- `epoll_wait` returns, and the clock reads `now`. -/
  | ready (batch : List EpollEvent) (now : ℤ)
  /-- The first timer is due. -/
  | timer
  /-- No timer is due. -/
  | timersDone
  /-- The next event, with the pid of a child that is forked in its callback. -/
  | event (fork : MasterPid) (now : ℤ)
  /-- The last event is done. -/
  | done
  /-- A child takes a step. -/
  | run (p : ProcPtr)
  | exit (p : ProcPtr)

/-- One step. `fork` does not fail, and a child can take a step at any time. -/
inductive DaemonStep : Daemon → DaemonOp → Daemon → Prop
  | ready {f : Farm} {batch : List EpollEvent} {now : ℤ} (h : ReadyOk f.world batch) :
      DaemonStep ⟨f, .blocked⟩ (.ready batch now)
        ⟨{ f with family := ⟨f.world.clocked now, f.family.kids⟩ }, .timers batch⟩
  | timer {f : Farm} {w' : World} {batch : List EpollEvent}
      (hdue : (eventFirstTimer f.world.timers).isSome)
      (h : masterTimer f.world f.world.timers.present = .ok w') :
      DaemonStep ⟨f, .timers batch⟩ .timer
        ⟨{ f with family := ⟨w', f.family.kids⟩ }, .timers batch⟩
  | timersDone {f : Farm} {batch : List EpollEvent}
      (hdue : eventFirstTimer f.world.timers = none) :
      DaemonStep ⟨f, .timers batch⟩ .timersDone ⟨f, .events batch⟩
  | availEvent {f : Farm} {w' : World} {e : EpollEvent} {batch : List EpollEvent} {s : ServPtr}
      {fork : MasterPid} {now : ℤ}
      (hcb : eventCallback f.world.masterEl e = .ok (some (some .masterAvailEvent, some s)))
      (hkids : fork ∉ f.family.kids) (hpid : f.PidFree fork)
      (h : masterAvailEvent f.world e.fd s (some fork) now = .ok w') :
      DaemonStep ⟨f, .events (e :: batch)⟩ (.event fork now)
        ⟨{ f with
          family := ⟨w', kidsAfter f.family.kids
            (availEventFork (f.world.serv s) e.fd (some fork))⟩
          child := f.born ((availEventFork (f.world.serv s) e.fd (some fork)).map (s, ·)) },
          .events batch⟩
  | statusEvent {f : Farm} {w' : World} {e : EpollEvent} {batch : List EpollEvent} {s : ServPtr}
      {p : ProcPtr} {stat : MasterStatus} {queue : List (ProcPtr × MasterStatus)}
      {fork : MasterPid} {now : ℤ}
      (hcb : eventCallback f.world.masterEl e = .ok (some (some .masterStatusEvent, some s)))
      (hqueue : (f.channel s).queue = (p, stat) :: queue) (hevent : e.fd ≠ 0)
      (h : masterStatusEvent f.world e.fd s (.stat stat) = .ok w') :
      DaemonStep ⟨f, .events (e :: batch)⟩ (.event fork now)
        ⟨{ f with
          family := ⟨w', f.family.kids⟩
          channel := Function.update f.channel s (f.channel s).receive }, .events batch⟩
  | noEvent {f : Farm} {e : EpollEvent} {batch : List EpollEvent} {fork : MasterPid} {now : ℤ}
      (hcb : eventCallback f.world.masterEl e = .ok none) :
      DaemonStep ⟨f, .events (e :: batch)⟩ (.event fork now) ⟨f, .events batch⟩
  | done {f : Farm} : DaemonStep ⟨f, .events []⟩ .done ⟨f, .blocked⟩
  | run {f : Farm} {phase : LoopPhase} {p : ProcPtr} {c : Child} (hc : f.child p = some c)
      (ha : c.alive = true) : DaemonStep ⟨f, phase⟩ (.run p) ⟨f.runChild p c, phase⟩
  | exit {f : Farm} {phase : LoopPhase} {p : ProcPtr} {c : Child} (hc : f.child p = some c)
      (ha : c.alive = true) : DaemonStep ⟨f, phase⟩ (.exit p) ⟨f.exitChild p c, phase⟩

/-- `main`, from its loop on. -/
def daemonSystem : LTS Daemon DaemonOp where
  init d := d.phase = .blocked ∧ ∃ lines w, masterConfig masterInit lines = .ok w ∧
    ConfigFds lines masterInit ∧ d.farm = { farmInit with family := ⟨w, ∅⟩ }
  step := DaemonStep

/-! ## The invariant -/

/-- No service is throttled, and every one is monitored as the decision says, as far as its
listen descriptor is inside the table. -/
structure World.Alert (w : World) : Prop extends w.Wiring where
  view : ∀ s ∈ w.masterHead, (w.view s).throttled = false ∧ (w.view s).Armed ∧
    ((w.view s).inTable = true → (w.view s).Agreed)

theorem World.Configured.alert {w : World} (h : w.Configured) : w.Alert where
  toWiring := h.toWiring
  view s hs := ⟨(h.fresh s hs).throttled, (h.fresh s hs).armed, (h.fresh s hs).agreed⟩

/-- A call that throttles no service keeps them alert. -/
theorem World.Alert.acts {w w' : World} (h : w.Alert) (hf : w.FdsOk)
    (hpos : ∀ s ∈ w.masterHead, 0 ≤ (w.serv s).listenFd) (ha : w.ActsAll w')
    (hthr : ∀ s, (w.serv s).flags.throttle = false → (w'.serv s).flags.throttle = false) :
    w'.Alert where
  toWiring := h.toWiring.acts ha.toKeeps
  view s hs := by
    rw [ha.head] at hs
    obtain ⟨hcalm, harmed, hagreed⟩ := h.view s hs
    have hsteps := ha.steps hf s (hpos s hs)
    refine ⟨hthr s hcalm, hsteps.armed harmed, fun hin => ?_⟩
    rw [hsteps.inTable] at hin
    exact hsteps.agreed (hagreed hin) hin

/-- Only a failed `fork` throttles in `master_spawn`. -/
theorem masterSpawn_throttle {w w' : World} {s : ServPtr} {pid : MasterPid} {now : ℤ}
    (h : masterSpawn w s (some pid) now = .ok w') (t : ServPtr) :
    (w'.serv t).flags.throttle = (w.serv t).flags.throttle := by
  obtain ⟨-, ⟨hnone, -⟩ | ⟨pid', v, -, hre, rfl⟩⟩ := masterSpawn_ok h
  · cases hnone
  · have hv := hre.throttle t
    rcases eq_or_ne t s with rfl | hne
    · simpa [World.more, World.forked, updProc, updServ] using hv
    · simpa [World.more, World.forked, updProc, updServ, hne] using hv

theorem masterStatusEvent_throttle {w w' : World} {event : ℤ} {s : ServPtr} {read : StatusRead}
    (h : masterStatusEvent w event s read = .ok w') (t : ServPtr) :
    (w'.serv t).flags.throttle = (w.serv t).flags.throttle := by
  obtain rfl | ⟨stat, p, -, -, -, -, ⟨-, hmore⟩ | ⟨-, hless⟩⟩ := masterStatusEvent_ok h
  · rfl
  · have hv := (masterAvailMore_ok hmore).2.throttle t
    rcases eq_or_ne t s with rfl | hne
    · simpa [World.more, updProc, updServ] using hv
    · simpa [World.more, updProc, updServ, hne] using hv
  · have hv := (masterAvailLess_ok hless).2.throttle t
    rcases eq_or_ne t s with rfl | hne
    · simpa [World.less, updProc, updServ] using hv
    · simpa [World.less, updProc, updServ, hne] using hv

theorem masterTimer_throttle {w w' : World} {now : ℤ} (h : masterTimer w now = .ok w')
    {t : ServPtr} (ht : (w.serv t).flags.throttle = false) :
    (w'.serv t).flags.throttle = false := by
  unfold masterTimer at h
  split at h
  · obtain rfl := Except.ok.inj h
    exact ht
  rename_i timer timers _
  split at h
  · rcases masterUnthrottle_ok h with ⟨-, hre⟩ | ⟨-, rfl⟩
    · rw [hre.throttle]
      rcases eq_or_ne t timer.context with rfl | hne
      · simp [World.released, updServ]
      · simpa [World.released, updServ, hne] using ht
    · exact ht
  · obtain rfl := Except.ok.inj h
    exact ht

/-- The context of a callback is the client data of the slot. -/
theorem clientData_of_eventCallback {w : World} {e : EpollEvent} {cb : Callback} {s : ServPtr}
    (h : eventCallback w.masterEl e = .ok (some (some cb, some s))) :
    (w.masterEl.regEvents e.fd).clientData = some s := by
  unfold eventCallback at h
  split at h
  · cases h
  simp only at h
  split at h
  · exact (Prod.mk.inj (Option.some.inj (Except.ok.inj h))).2
  split at h
  · exact (Prod.mk.inj (Option.some.inj (Except.ok.inj h))).2
  · cases Except.ok.inj h

namespace Farm

/-- What the loop keeps. Every process that was forked has a record in the table, also after it has
exited. -/
structure Tended (f : Farm) : Prop where
  inv : f.Inv
  attached : f.Attached
  alert : f.world.Alert
  unreaped : ∀ p c, f.child p = some c → p ∈ f.world.children

/-- What `main` enters its loop with. -/
theorem tended_init {w : World} (hm : Family.Managed ⟨w, ∅⟩) (hc : w.Configured) :
    Tended { farmInit with family := ⟨w, ∅⟩ } := by
  have hnone : w.children = [] := by
    refine List.eq_nil_iff_forall_not_mem.2 fun p hp => ?_
    exact Finset.notMem_empty _ ((hm.account.kids _).2 ⟨p, hp, rfl⟩)
  refine ⟨⟨hm, fun p hp => ?_, nofun, nofun, nofun, nofun, fun _ _ _ => ⟨rfl, rfl⟩, nofun, nofun⟩,
    nofun, hc.alert, nofun⟩
  rw [world, hnone] at hp
  cases hp

/-- A call that reaps no child, of a master that stays alert. -/
theorem Tended.call {f : Farm} {family : Family} (h : f.Tended) (op : MasterOp)
    (hread : ∀ s read, op ≠ .statusEvent s read)
    (hst : reloadSystem.step f.family (.call op) family)
    (hpid : ∀ s pid, op.forks f.world = some (s, pid) → f.PidFree pid) (hreaped : op.reaped = [])
    (halert : family.world.Alert) :
    Tended { f with family := family, child := f.born (op.forks f.world) } := by
  have hcall : farmSystem.step f (.call op)
      { f with family := family, child := f.born (op.forks f.world) } :=
    .call hread hst hpid (by simp [hreaped])
  refine ⟨h.inv.step hcall, h.attached.step h.inv id hcall, halert, fun p c hc => ?_⟩
  obtain ⟨⟨hallow, hker⟩, hexec, hkids⟩ := id hst
  have he := masterExec_enrolls h.inv.managed.account (fun s hs => (h.inv.managed.head s hs).1)
    hallow hker hread (ok_of_map_some hexec)
  rcases h.inv.born_eq_some.1 hc with hc | ⟨s, pid, hforks, rfl, -⟩
  · exact he.stays h.inv.managed.account (h.inv.managed.step hst).1.account hker hkids
      (h.unreaped p c hc) (by simp [hreaped])
  · exact (he.born s pid hforks).mem

/-- A call that throttles no service keeps the master alert. -/
theorem Tended.alert_acts {f : Farm} {w' : World} (h : f.Tended) (ha : f.world.ActsAll w')
    (hthr : ∀ s, (f.world.serv s).flags.throttle = false → (w'.serv s).flags.throttle = false) :
    w'.Alert :=
  h.alert.acts h.inv.managed.fds (fun s hs => (h.inv.managed.head s hs).2.le) ha hthr

/-- The clock is no part of what is kept. -/
theorem Tended.clocked {f : Farm} (h : f.Tended) (now : ℤ) :
    Tended { f with family := ⟨f.world.clocked now, f.family.kids⟩ } := by
  have hsame := clocked_sameBooks f.world now
  have hm : Family.Managed ⟨f.world.clocked now, f.family.kids⟩ :=
    ⟨h.inv.managed.account.of_same hsame, (clocked_acts _ now).toKeeps.fdsOk h.inv.managed.fds,
      h.inv.managed.head, h.inv.managed.honest⟩
  have hinv := h.inv.enrolled hm hsame.enrolls le_rfl nofun h.inv.alive
  exact ⟨hinv, h.attached, h.alert_acts (clocked_acts _ now) fun _ => id, h.unreaped⟩

/-- A connection event forks a child, if the event is for a descriptor at all. -/
theorem Tended.availEvent {f : Farm} {w' : World} {e : EpollEvent} {s : ServPtr} {fork : MasterPid}
    {now : ℤ} (h : f.Tended)
    (hcb : eventCallback f.world.masterEl e = .ok (some (some .masterAvailEvent, some s)))
    (hkids : fork ∉ f.family.kids) (hpid : f.PidFree fork)
    (hexec : masterAvailEvent f.world e.fd s (some fork) now = .ok w') :
    Tended { f with
      family := ⟨w', kidsAfter f.family.kids
        (availEventFork (f.world.serv s) e.fd (some fork))⟩
      child := f.born ((availEventFork (f.world.serv s) e.fd (some fork)).map (s, ·)) } := by
  have hs : s ∈ f.world.masterHead := h.alert.client e.fd s (clientData_of_eventCallback hcb)
  have hcalm := (h.alert.view s hs).1
  obtain ⟨hev, rfl⟩ | ⟨-, hthr, -⟩ | ⟨hev, hthr, hspawn⟩ := masterAvailEvent_ok hexec
  · rw [availEventFork, if_pos (Or.inl hev)]
    exact h
  · exact (Bool.false_ne_true (hcalm.symm.trans hthr)).elim
  · have hforked : availEventFork (f.world.serv s) e.fd (some fork) = some fork :=
      if_neg (not_or.2 ⟨hev, by simp [hthr]⟩)
    rw [hforked]
    have hst : reloadSystem.step f.family (.call (.spawn s (some fork) now))
        ⟨w', kidsAfter f.family.kids (some fork)⟩ := by
      refine ⟨⟨hs, fun pid hp => ?_, by simp [WaitOk, MasterOp.reaped]⟩,
        bind_ok_iff.2 ⟨w', hspawn, rfl⟩, rfl⟩
      obtain rfl := Option.some.inj hp
      exact hkids
    refine h.call (.spawn s (some fork) now) (by simp) hst (fun t pid hp => ?_) rfl
      (h.alert_acts (masterSpawn_acts hspawn).all fun t ht => ?_)
    · obtain ⟨-, rfl⟩ := Prod.mk.inj (Option.some.inj hp)
      exact hpid
    · rw [masterSpawn_throttle hspawn]
      exact ht

/-- A status event reads the next message of the service. -/
theorem Tended.statusEvent {f : Farm} {w' : World} {e : EpollEvent} {s : ServPtr} {p : ProcPtr}
    {stat : MasterStatus} {queue : List (ProcPtr × MasterStatus)} (h : f.Tended)
    (hcb : eventCallback f.world.masterEl e = .ok (some (some .masterStatusEvent, some s)))
    (hqueue : (f.channel s).queue = (p, stat) :: queue) (hevent : e.fd ≠ 0)
    (hexec : masterStatusEvent f.world e.fd s (.stat stat) = .ok w') :
    Tended { f with
      family := ⟨w', f.family.kids⟩
      channel := Function.update f.channel s (f.channel s).receive } := by
  have hs : s ∈ f.world.masterHead := h.alert.client e.fd s (clientData_of_eventCallback hcb)
  have hfd : (f.world.serv s).statusFd.1 ≠ 0 := (h.alert.status s hs).ne'
  -- the callback asks only whether there is a descriptor
  have hexec' : masterStatusEvent f.world (f.world.serv s).statusFd.1 s (.stat stat) = .ok w' := by
    unfold masterStatusEvent at hexec ⊢
    rw [if_neg hfd]
    rwa [if_neg hevent] at hexec
  have hst : farmSystem.step f (.read s) { f with
      family := ⟨w', f.family.kids⟩
      channel := Function.update f.channel s (f.channel s).receive } :=
    .read hqueue hfd (step_of_quiet hs rfl rfl hexec')
  refine ⟨h.inv.step hst, h.attached.step h.inv id hst,
    h.alert_acts (masterStatusEvent_acts hexec).all fun t ht => ?_, fun q c hc => ?_⟩
  · rw [masterStatusEvent_throttle hexec]
    exact ht
  · obtain ⟨d, -, -, -, -, hstatus⟩ := h.inv.queued s (p, stat) (by rw [hqueue]; simp)
    have hr := masterStatusEvent_reported h.inv.managed.account hevent hstatus hexec
    rw [world, hr.children]
    exact h.unreaped q c hc

end Farm

theorem Farm.Tended.step {d d' : Daemon} {op : DaemonOp} (h : d.farm.Tended)
    (hst : daemonSystem.step d op d') : d'.farm.Tended := by
  cases hst with
  | ready hready => exact h.clocked _
  | @timer f w' batch hdue hexec =>
    have hstep : reloadSystem.step f.family (.call (.timer f.world.timers.present))
        ⟨w', f.family.kids⟩ :=
      step_of_quiet trivial rfl rfl hexec
    exact h.call (.timer f.world.timers.present) (by simp) hstep (by simp [MasterOp.forks]) rfl
      (h.alert_acts (masterTimer_acts hexec) fun _ => masterTimer_throttle hexec)
  | timersDone hdue => exact h
  | availEvent hcb hkids hpid hexec => exact h.availEvent hcb hkids hpid hexec
  | statusEvent hcb hqueue hevent hexec => exact h.statusEvent hcb hqueue hevent hexec
  | noEvent hcb => exact h
  | done => exact h
  | @run f phase p c hc ha =>
    have hstep : farmSystem.step f (.run p) (f.runChild p c) := .run hc ha
    refine ⟨h.inv.step hstep, h.attached.step h.inv id hstep, h.alert, fun q d hd => ?_⟩
    obtain ⟨d', hd', -⟩ := Farm.child_of_runChild hc hd
    exact h.unreaped q d' hd'
  | @exit f phase p c hc ha =>
    have hstep : farmSystem.step f (.exit p) (f.exitChild p c) := .exit hc ha
    refine ⟨h.inv.step hstep, h.attached.step h.inv id hstep, h.alert, fun q d hd => ?_⟩
    obtain ⟨d', hd', -⟩ := Farm.child_of_exitChild hc hd
    exact h.unreaped q d' hd'

theorem tended_of_init {d : Daemon} (h : daemonSystem.init d) : d.farm.Tended := by
  obtain ⟨-, lines, w, hw, hfds, hd⟩ := h
  obtain ⟨hm, hc⟩ := masterConfig_configured hw hfds
  rw [hd]
  exact Farm.tended_init hm hc

/-- Without an exit every process stays alive. -/
theorem alive_of_step {d d' : Daemon} {op : DaemonOp} (h : d.farm.Tended)
    (halive : ∀ p c, d.farm.child p = some c → c.alive = true) (hop : ∀ p, op ≠ .exit p)
    (hst : daemonSystem.step d op d') : ∀ p c, d'.farm.child p = some c → c.alive = true := by
  cases hst with
  | ready | timer | timersDone | statusEvent | noEvent | done => exact halive
  | availEvent hcb hkids hpid hexec =>
    intro p c hc
    rcases h.inv.born_eq_some.1 hc with hc | ⟨s, pid, -, -, rfl⟩
    · exact halive p c hc
    · rfl
  | run hc ha =>
    intro q d hd
    obtain ⟨d', hd', -, -, hsame⟩ := Farm.child_of_runChild hc hd
    exact hsame.trans (halive q d' hd')
  | exit hc ha => exact (hop _ rfl).elim

/-! ## Who listens -/

namespace Farm

/-- How many children were forked for the service, but those whose exit counts. -/
def forkedOf (f : Farm) (gone : ProcPtr → Bool) (s : ServPtr) : ℕ :=
  (List.range f.world.nextProc).countP fun p => !gone p && (f.child p).any fun c => c.serv = s

/-- A child of the service whose exit does not count is idle, as far as it has notified. -/
def HasIdle (f : Farm) (gone : ProcPtr → Bool) (s : ServPtr) : Prop :=
  ∃ p c, f.child p = some c ∧ c.serv = s ∧ gone p = false ∧ c.phase.status = masterStatAvail

/-- When no process listens on the socket, the master does. -/
def Watched (f : Farm) (gone : ProcPtr → Bool) (s : ServPtr) : Prop :=
  (f.world.serv s).flags.throttle = false → ¬f.HasIdle gone s →
    ((f.world.serv s).maxProc = 0 ∨ f.forkedOf gone s < (f.world.serv s).maxProc) →
    f.world.interest (f.world.serv s).listenFd = true

/-- A child of the service is idle, or its children are at the limit, or else the listen descriptor
is inside the table, none of the children that are gone was idle at its end, and all that were ever
forked are below the limit. -/
def Covered (f : Farm) (gone : ProcPtr → Bool) (s : ServPtr) : Prop :=
  f.HasIdle gone s ∨
  ((f.world.serv s).maxProc ≠ 0 ∧ (f.world.serv s).maxProc ≤ f.forkedOf gone s) ∨
  ((f.world.serv s).listenFd < f.world.masterEl.size ∧
    (∀ p c, f.child p = some c → c.serv = s → gone p = true → c.phase.status ≠ masterStatAvail) ∧
    ((f.world.serv s).maxProc = 0 ∨ f.forkedOf (fun _ => false) s < (f.world.serv s).maxProc))

/-- The master counts every child that was ever forked. -/
theorem Tended.totalProc {f : Farm} (h : f.Tended) (s : ServPtr) :
    (f.world.serv s).totalProc = f.forkedOf (fun _ => false) s := by
  rw [h.inv.managed.account.total s, totalOf, forkedOf, List.countP_eq_length_filter,
    List.countP_eq_length_filter, Nat.cast_inj]
  refine List.Perm.length_eq ((List.perm_ext_iff_of_nodup
    (h.inv.managed.account.children_nodup.filter _) (List.nodup_range.filter _)).2 fun p => ?_)
  simp only [List.mem_filter, List.mem_range, decide_eq_true_eq, Bool.not_false, Bool.true_and]
  constructor
  · rintro ⟨hp, hs⟩
    obtain ⟨c, hc⟩ := h.inv.known p hp
    obtain ⟨hlt, -, hserv, -⟩ := h.inv.record p c hc
    exact ⟨hlt, by simpa [hc] using hserv.symm.trans hs⟩
  · rintro ⟨-, hs⟩
    obtain ⟨c, hc, hserv⟩ := (Option.any_eq_true _ _).1 hs
    exact ⟨h.unreaped p c hc, (h.inv.record p c hc).2.2.1.trans (of_decide_eq_true hserv)⟩

/-- No child is available to the master if and only if none was idle when it was last heard of. -/
theorem Tended.availProc {f : Farm} (h : f.Tended) {s : ServPtr}
    (hqueue : (f.channel s).queue = []) :
    (f.world.serv s).availProc ≤ 0 ↔
      ∀ p c, f.child p = some c → c.serv = s → c.phase.status ≠ masterStatAvail := by
  have hphase : ∀ p c, f.child p = some c → c.serv = s →
      ((f.world.proc p).serv = s ∧ (f.world.proc p).avail = c.phase.status) := fun p c hc hs =>
    ⟨(h.inv.record p c hc).2.2.1.trans hs,
      h.inv.avail_phase h.attached (h.unreaped p c hc) hc (hs ▸ hqueue)⟩
  have hcount : (f.world.serv s).availProc ≤ 0 ↔ f.world.availOf s = 0 := by
    rw [h.inv.managed.account.availProc s]
    exact Nat.cast_nonpos
  rw [hcount, availOf, List.countP_eq_zero]
  simp only [decide_eq_true_eq, not_and]
  constructor
  · intro hnone p c hc hs he
    obtain ⟨hserv, havail⟩ := hphase p c hc hs
    exact hnone p (h.unreaped p c hc) hserv (havail.trans he)
  · intro hnone p hp hserv he
    obtain ⟨c, hc⟩ := h.inv.known p hp
    have hs : c.serv = s := (h.inv.record p c hc).2.2.1.symm.trans hserv
    exact hnone p c hc hs ((hphase p c hc hs).2.symm.trans he)

/-- When the pipe is drained, the master listens if and only if none of the children that it has
ever forked was idle when it was last heard of, and they are within the limit. -/
theorem Tended.interest_iff {f : Farm} (h : f.Tended) {s : ServPtr} (hs : s ∈ f.world.masterHead)
    (hqueue : (f.channel s).queue = []) :
    f.world.interest (f.world.serv s).listenFd = true ↔
      (f.world.serv s).listenFd < f.world.masterEl.size ∧
      (∀ p c, f.child p = some c → c.serv = s → c.phase.status ≠ masterStatAvail) ∧
      ((f.world.serv s).maxProc = 0 ∨
        f.forkedOf (fun _ => false) s < (f.world.serv s).maxProc) := by
  obtain ⟨hcalm, harmed, hagreed⟩ := h.alert.view s hs
  have hlimit : masterLimitOk (f.world.serv s).maxProc (f.world.serv s).totalProc = true ↔
      (f.world.serv s).maxProc = 0 ∨
        f.forkedOf (fun _ => false) s < (f.world.serv s).maxProc := by
    rw [h.totalProc s]
    simp [masterLimitOk]
  by_cases hin : (f.world.serv s).listenFd < f.world.masterEl.size
  · have hview : (f.world.view s).inTable = true := decide_eq_true hin
    have hspare : (f.world.view s).Spare ↔ (f.world.serv s).availProc ≤ 0 ∧
        masterLimitOk (f.world.serv s).maxProc (f.world.serv s).totalProc = true := Iff.rfl
    rw [h.availProc hqueue, hlimit] at hspare
    exact ((hagreed hview).symm.trans ((harmed hcalm).trans hspare)).trans
      (and_iff_right hin).symm
  · simp [World.interest, hin]

theorem Tended.watched_iff {f : Farm} (h : f.Tended) {s : ServPtr} (hs : s ∈ f.world.masterHead)
    (hqueue : (f.channel s).queue = []) (gone : ProcPtr → Bool) :
    f.Watched gone s ↔ f.Covered gone s := by
  have hiff := h.interest_iff hs hqueue
  have hcalm := (h.alert.view s hs).1
  constructor
  · intro hw
    by_cases hidle : f.HasIdle gone s
    · exact Or.inl hidle
    by_cases hlimit : (f.world.serv s).maxProc = 0 ∨ f.forkedOf gone s < (f.world.serv s).maxProc
    · obtain ⟨hin, hnone, htotal⟩ := hiff.1 (hw hcalm hidle hlimit)
      exact Or.inr (Or.inr ⟨hin, fun p c hc hs _ => hnone p c hc hs, htotal⟩)
    · rw [not_or, not_lt] at hlimit
      exact Or.inr (Or.inl hlimit)
  · rintro (hidle | ⟨hne, hle⟩ | ⟨hin, hbusy, htotal⟩) - hno hlimit
    · exact (hno hidle).elim
    · exact (not_lt.2 hle (hlimit.resolve_left hne)).elim
    · refine hiff.2 ⟨hin, fun p c hc hs he => ?_, htotal⟩
      cases hg : gone p with
      | false => exact hno ⟨p, c, hc, hs, hg, he⟩
      | true => exact hbusy p c hc hs hg he

/-- As long as nobody is gone, the master listens when no process does. -/
theorem Tended.watched {f : Farm} (h : f.Tended) {s : ServPtr} (hs : s ∈ f.world.masterHead)
    (hqueue : (f.channel s).queue = []) (hin : (f.world.serv s).listenFd < f.world.masterEl.size) :
    f.Watched (fun _ => false) s := fun _ hno hlimit =>
  (h.interest_iff hs hqueue).2
    ⟨hin, fun p c hc hs he => hno ⟨p, c, hc, hs, rfl, he⟩, hlimit⟩

end Farm

/-- In every run of the main loop, whenever the status pipe of a service is drained, the master
listens if no process does if and only if the service is covered, and in a run without an exit it
does, inside the table. `gone` are the children whose exit counts. -/
theorem daemon_watches {d : Daemon} {tr : List (Daemon × DaemonOp × Daemon)}
    (h : daemonSystem.Run tr d) {s : ServPtr} (hs : s ∈ d.farm.world.masterHead)
    (hqueue : (d.farm.channel s).queue = []) {gone : ProcPtr → Bool}
    (hgone : ∀ p, gone p = true → ∃ c, d.farm.child p = some c ∧ c.alive = false) :
    (d.farm.Watched gone s ↔ d.farm.Covered gone s) ∧
    ((∀ x ∈ tr, ∀ p, x.2.1 ≠ .exit p) →
      (d.farm.world.serv s).listenFd < d.farm.world.masterEl.size → d.farm.Watched gone s) := by
  have htended := (h.invariant (P := fun d => d.farm.Tended) (fun _ => tended_of_init)
    fun _ _ _ h hst => h.step hst).1
  refine ⟨htended.watched_iff hs hqueue gone, fun hop hin => ?_⟩
  obtain ⟨d₀, hd₀, hp⟩ := h
  have hfirst : ∀ p c, d₀.farm.child p = some c → c.alive = true := by
    obtain ⟨-, lines, w, -, -, hfarm⟩ := hd₀
    rw [hfarm]
    exact nofun
  have halive := (hp.invariant_of (C := fun _ op => ∀ p, op ≠ .exit p)
    (P := fun d => d.farm.Tended ∧ ∀ p c, d.farm.child p = some c → c.alive = true)
    ⟨tended_of_init hd₀, hfirst⟩
    (fun _ _ _ hd hop hst => ⟨hd.1.step hst, alive_of_step hd.1 hd.2 hop hst⟩) hop).1.2
  have hnone : gone = fun _ => false := by
    ext p
    rw [Bool.eq_false_iff]
    intro hg
    obtain ⟨c, hc, ha⟩ := hgone p hg
    exact Bool.false_ne_true (ha.symm.trans (halive p c hc))
  rw [hnone]
  exact htended.watched hs hqueue hin

/-- A step of the daemon, if it is one and its callback does not panic. -/
def daemonCall : Daemon → DaemonOp → Option Daemon
  | ⟨f, phase⟩, .run p => (f.child p).bind fun c =>
    if c.alive then some ⟨f.runChild p c, phase⟩ else none
  | ⟨f, phase⟩, .exit p => (f.child p).bind fun c =>
    if c.alive then some ⟨f.exitChild p c, phase⟩ else none
  | ⟨f, .blocked⟩, .ready batch now =>
    if ReadyOk f.world batch then
      some ⟨{ f with family := ⟨f.world.clocked now, f.family.kids⟩ }, .timers batch⟩
    else none
  | ⟨f, .timers batch⟩, .timersDone =>
    if (eventFirstTimer f.world.timers).isNone then some ⟨f, .events batch⟩ else none
  | ⟨f, .events (e :: batch)⟩, .event fork now =>
    match eventCallback f.world.masterEl e with
    | .ok (some (some .masterAvailEvent, some s)) =>
      if fork ∉ f.family.kids ∧ f.PidFree fork then
        (masterAvailEvent f.world e.fd s (some fork) now).toOption.map fun w =>
          ⟨{ f with
            family := ⟨w, kidsAfter f.family.kids
              (availEventFork (f.world.serv s) e.fd (some fork))⟩
            child := f.born ((availEventFork (f.world.serv s) e.fd (some fork)).map (s, ·)) },
            .events batch⟩
      else none
    | .ok (some (some .masterStatusEvent, some s)) =>
      match (f.channel s).queue with
      | [] => none
      | (_, stat) :: _ =>
        if e.fd ≠ 0 then
          (masterStatusEvent f.world e.fd s (.stat stat)).toOption.map fun w =>
            ⟨{ f with
              family := ⟨w, f.family.kids⟩
              channel := Function.update f.channel s (f.channel s).receive }, .events batch⟩
        else none
    | .ok none => some ⟨f, .events batch⟩
    | _ => none
  | ⟨f, .events []⟩, .done => some ⟨f, .blocked⟩
  | _, _ => none

theorem step_of_daemonCall {d d' : Daemon} {op : DaemonOp} (h : daemonCall d op = some d') :
    daemonSystem.step d op d' := by
  unfold daemonCall at h
  split at h
  · obtain ⟨c, hc, h⟩ := Option.bind_eq_some_iff.1 h
    split at h
    · obtain rfl := Option.some.inj h
      exact .run hc ‹_›
    · cases h
  · obtain ⟨c, hc, h⟩ := Option.bind_eq_some_iff.1 h
    split at h
    · obtain rfl := Option.some.inj h
      exact .exit hc ‹_›
    · cases h
  · split at h
    · obtain rfl := Option.some.inj h
      exact .ready ‹_›
    · cases h
  · split at h
    · obtain rfl := Option.some.inj h
      exact .timersDone (Option.isNone_iff_eq_none.1 ‹_›)
    · cases h
  · split at h
    · rename_i hcb
      split at h
      · rename_i hfork
        obtain ⟨w, hw, rfl⟩ := Option.map_eq_some_iff.1 h
        exact .availEvent hcb hfork.1 hfork.2 (toOption_eq_some hw)
      · cases h
    · rename_i hcb
      split at h
      · cases h
      rename_i hqueue
      split at h
      · rename_i hevent
        obtain ⟨w, hw, rfl⟩ := Option.map_eq_some_iff.1 h
        exact .statusEvent hcb hqueue hevent (toOption_eq_some hw)
      · cases h
    · rename_i hcb
      obtain rfl := Option.some.inj h
      exact .noEvent hcb
    · cases h
  · obtain rfl := Option.some.inj h
    exact .done
  · cases h

/-- The daemon, with one line for `smtp` in its configuration file. -/
def smtpDaemon (limit : ℕ) (ops : List DaemonOp) : Option Daemon :=
  (masterConfig masterInit [(smtpEnt limit, smtpFds)]).toOption.bind fun w =>
    ops.foldlM daemonCall ⟨{ farmInit with family := ⟨w, ∅⟩ }, .blocked⟩

theorem run_of_smtpDaemon {limit : ℕ} {ops : List DaemonOp} {d : Daemon}
    (h : smtpDaemon limit ops = some d) :
    ∃ tr, daemonSystem.Run tr d ∧ tr.map (fun x => x.2.1) = ops := by
  obtain ⟨w, hw, h⟩ := Option.bind_eq_some_iff.1 h
  obtain ⟨tr, hp, hmap⟩ := LTS.Path.of_foldlM (S := daemonSystem)
    (fun _ _ _ => step_of_daemonCall) h
  have hfds : ConfigFds [(smtpEnt limit, smtpFds)] masterInit :=
    ⟨smtpFds_unused, fun _ _ => trivial⟩
  exact ⟨tr, ⟨_, ⟨rfl, _, w, toOption_eq_some hw, hfds, rfl⟩, hp⟩, hmap⟩

/-- A child is forked, takes a connection and says so, and the master listens again. -/
theorem daemon_watches_smtp : ∃ d tr, daemonSystem.Run tr d ∧
    tr.map (fun x => x.2.1) = [.ready [⟨6, ⟨true, false⟩⟩] 1000, .timersDone, .event 100 1000,
      .done, .run 0, .run 0, .ready [⟨7, ⟨true, false⟩⟩] 1001, .timersDone, .event 101 1001,
      .done] ∧
    d.phase = .blocked ∧ 0 ∈ d.farm.world.masterHead ∧ (d.farm.channel 0).queue = [] ∧
    d.farm.Watched (fun _ => false) 0 ∧ d.farm.world.interest 6 = true := by
  have hrun : (smtpDaemon 2 [.ready [⟨6, ⟨true, false⟩⟩] 1000, .timersDone, .event 100 1000,
      .done, .run 0, .run 0, .ready [⟨7, ⟨true, false⟩⟩] 1001, .timersDone, .event 101 1001,
      .done]).any (fun d => d.phase = .blocked ∧ d.farm.world.masterHead = [0] ∧
        (d.farm.channel 0).queue.isEmpty ∧
        (d.farm.world.serv 0).listenFd < d.farm.world.masterEl.size ∧
        d.farm.world.interest 6 = true) = true := by
    decide +kernel
  obtain ⟨d, hd, hobs⟩ := (Option.any_eq_true _ _).1 hrun
  obtain ⟨hphase, hhead, hqueue, hin, hinterest⟩ := of_decide_eq_true hobs
  obtain ⟨tr, htr, hops⟩ := run_of_smtpDaemon hd
  have hmem : 0 ∈ d.farm.world.masterHead := by simp [hhead]
  have hdrained := List.isEmpty_iff.1 hqueue
  have hno : ∀ x ∈ tr, ∀ p, x.2.1 ≠ .exit p := by
    have hall : ∀ op ∈ tr.map (fun x => x.2.1), ∀ p, op ≠ DaemonOp.exit p := by
      rw [hops]
      simp
    exact fun x hx => hall _ (List.mem_map_of_mem hx)
  have hwatched : d.farm.Watched (fun _ => false) 0 :=
    (daemon_watches htr hmem hdrained fun _ hg => (Bool.false_ne_true hg).elim).2 hno hin
  exact ⟨d, tr, htr, hops, hphase, hmem, hdrained, hwatched, hinterest⟩

/-- A child is forked and exits before a client comes to it. Two iterations later the master, with
no child alive, does not listen. -/
theorem daemon_deaf_smtp : ∃ d tr, daemonSystem.Run tr d ∧
    tr.map (fun x => x.2.1) = [.ready [⟨6, ⟨true, false⟩⟩] 1000, .timersDone, .event 100 1000,
      .done, .exit 0, .ready [] 1001, .timersDone, .done, .ready [] 1002, .timersDone, .done] ∧
    d.phase = .blocked ∧ 0 ∈ d.farm.world.masterHead ∧
    (∀ t ∈ d.farm.world.masterHead, (d.farm.channel t).queue = []) ∧
    (d.farm.world.serv 0).flags.throttle = false ∧
    (∀ p c, d.farm.child p = some c → c.alive = false) ∧
    (d.farm.world.serv 0).maxProc = 2 ∧ (d.farm.world.serv 0).listenFd = 6 ∧
    d.farm.world.interest 6 = false ∧
    ¬d.farm.Watched (fun p => (d.farm.child p).any fun c => !c.alive) 0 := by
  have hrun : (smtpDaemon 2 [.ready [⟨6, ⟨true, false⟩⟩] 1000, .timersDone, .event 100 1000,
      .done, .exit 0, .ready [] 1001, .timersDone, .done, .ready [] 1002, .timersDone,
      .done]).any (fun d => d.phase = .blocked ∧ d.farm.world.masterHead = [0] ∧
        (d.farm.channel 0).queue.isEmpty ∧ (d.farm.world.serv 0).flags.throttle = false ∧
        ((List.range d.farm.world.nextProc).all fun p => (d.farm.child p).all fun c => !c.alive) ∧
        d.farm.forkedOf (fun p => (d.farm.child p).any fun c => !c.alive) 0 = 0 ∧
        (d.farm.world.serv 0).maxProc = 2 ∧ (d.farm.world.serv 0).listenFd = 6 ∧
        d.farm.world.interest 6 = false) = true := by
    decide +kernel
  obtain ⟨d, hd, hobs⟩ := (Option.any_eq_true _ _).1 hrun
  obtain ⟨hphase, hhead, hqueue, hthr, hdead, hliving, hmax, hfd, hinterest⟩ :=
    of_decide_eq_true hobs
  obtain ⟨tr, htr, hops⟩ := run_of_smtpDaemon hd
  have hinv := (htr.invariant (P := fun d : Daemon => d.farm.Tended) (fun _ => tended_of_init)
    fun _ _ _ h hst => h.step hst).1.inv
  have hgone : ∀ p c, d.farm.child p = some c → c.alive = false := by
    intro p c hc
    have hall := List.all_eq_true.1 hdead p (List.mem_range.2 (hinv.record p c hc).1)
    simpa [hc] using hall
  refine ⟨d, tr, htr, hops, hphase, by simp [hhead], ?_, hthr, hgone, hmax, hfd, hinterest,
    fun hw => ?_⟩
  · rw [hhead]
    simpa using hqueue
  · have hlistens := hw hthr (fun ⟨p, c, hc, _, hp, _⟩ => by simp [hc, hgone p c hc] at hp)
      (Or.inr (by rw [hliving, hmax]; decide))
    rw [hfd, hinterest] at hlistens
    cases hlistens

end Nowra
