import Nowra.Monitor
import Nowra.Run

/-!
# What happens to a master

The calls that reach a running master one at a time (`MasterOp`), and what each does
(`masterExec`) : a service is started, a handler of the event loop runs, dead children are
reaped, a timer is dispatched. A call that panics has no successor.

`masterExec_acts` says of every call but a start that it takes each service's monitor through
steps, unless it is a connection event for a throttled service, and that it leaves the services
and their descriptors as they are.
-/

namespace Nowra

/-- A call that reaches the master. -/
inductive MasterOp
  /-- `master_start_service` of a new entry. -/
  | start (ent : MasterEnt) (fds : ServFds)
  | spawn (s : ServPtr) (fork : Option MasterPid) (now : ℤ)
  | throttle (s : ServPtr) (now : ℤ)
  | unthrottle (s : ServPtr) (now : ℤ)
  /-- A connection event on the listen descriptor. -/
  | availEvent (s : ServPtr) (fork : Option MasterPid) (now : ℤ)
  /-- A read event on the status pipe. -/
  | statusEvent (s : ServPtr) (read : StatusRead)
  /-- `master_reap_child`. -/
  | reapChild (dead : List Waited)
  /-- A turn of the timer dispatch of `event_wait`, at a new reading of the clock. -/
  | timer (now : ℤ)

/-- Dispatch the first timer, if it is due. The callback of an unrelated one leaves the master
alone. -/
def masterTimer (w : World) (now : ℤ) : Except Panic World :=
  match eventFirstTimer w.timers with
  | none => pure w
  | some (timer, timers) =>
    match timer.callback with
    | .masterUnthrottleWrapper =>
      masterUnthrottleWrapper { w with timers := timers } timer.context now
    | .other _ => pure { w with timers := timers }

/-- Read the clock, as `event_wait` does before it dispatches timers. -/
def World.clocked (w : World) (now : ℤ) : World :=
  { w with timers := { w.timers with present := now } }

/-- What a call does. -/
def masterExec (w : World) : MasterOp → Except Panic World
  | .start ent fds => masterConfigNew w ent fds
  | .spawn s fork now => masterSpawn w s fork now
  | .throttle s now => masterThrottle w s now
  | .unthrottle s now => masterUnthrottle w s now
  | .availEvent s fork now => masterAvailEvent w (w.serv s).listenFd s fork now
  | .statusEvent s read => masterStatusEvent w (w.serv s).statusFd.1 s read
  | .reapChild dead => masterReapChild w dead
  | .timer now => masterTimer (w.clocked now) now

namespace World

/-- The descriptor is one of a service. -/
def Open (w : World) (fd : ℤ) : Prop :=
  ∃ s, (w.serv s).listenFd = fd ∨ (w.serv s).statusFd.1 = fd ∨ (w.serv s).statusFd.2 = fd

/-- The kernel returns descriptors that are not open, each once. Descriptor `0` is open. -/
structure Unused (w : World) (fds : ServFds) : Prop where
  listen : fds.listenFd ≠ 0 ∧ ¬w.Open fds.listenFd
  read : 0 < fds.status.1 ∧ ¬w.Open fds.status.1 ∧ fds.status.1 ≠ fds.listenFd
  write : 0 < fds.status.2 ∧ ¬w.Open fds.status.2 ∧ fds.status.2 ≠ fds.listenFd ∧
    fds.status.2 ≠ fds.status.1

/-- What stays when services are neither started nor stopped. -/
structure Keeps (w w' : World) : Prop where
  head : w'.masterHead = w.masterHead
  nextServ : w'.nextServ = w.nextServ
  size : w'.masterEl.size = w.masterEl.size
  listenFd : ∀ s, (w'.serv s).listenFd = (w.serv s).listenFd
  statusFd : ∀ s, (w'.serv s).statusFd = (w.serv s).statusFd
  slot : ∀ fd, w.SlotKept w' fd

theorem Keeps.refl (w : World) : w.Keeps w :=
  ⟨rfl, rfl, rfl, fun _ => rfl, fun _ => rfl, SlotKept.refl w⟩

theorem Keeps.trans {w w' w'' : World} (h : w.Keeps w') (h' : w'.Keeps w'') : w.Keeps w'' :=
  ⟨h'.head.trans h.head, h'.nextServ.trans h.nextServ, h'.size.trans h.size,
    fun s => (h'.listenFd s).trans (h.listenFd s), fun s => (h'.statusFd s).trans (h.statusFd s),
    fun fd => (h.slot fd).trans (h'.slot fd) h.listenFd⟩

theorem Only.keeps {w w' : World} {s : ServPtr} (h : w.Only w' s) : w.Keeps w' :=
  ⟨h.head, h.nextServ, h.size, h.listenFd_eq, h.statusFd_eq, h.slot⟩

theorem Keeps.fdsOk {w w' : World} (h : w.Keeps w') (hf : w.FdsOk) : w'.FdsOk where
  listen t t' := by simpa only [h.listenFd] using hf.listen t t'
  status t t' := by simpa only [h.listenFd, h.statusFd] using hf.status t t'

/-- A call takes every service's monitor through steps. -/
structure ActsAll (w w' : World) : Prop extends w.Keeps w' where
  steps : w.FdsOk → ∀ s, 0 ≤ (w.serv s).listenFd → (w.view s).Steps (w'.view s)

theorem ActsAll.refl (w : World) : w.ActsAll w :=
  ⟨.refl w, fun _ _ _ => .refl⟩

theorem ActsAll.trans {w w' w'' : World} (h : w.ActsAll w') (h' : w'.ActsAll w'') :
    w.ActsAll w'' :=
  ⟨h.toKeeps.trans h'.toKeeps, fun hf s hs =>
    (h.steps hf s hs).trans (h'.steps (h.toKeeps.fdsOk hf) s (by rwa [h.listenFd]))⟩

theorem Acts.all {w w' : World} {s : ServPtr} (h : w.Acts w' s) : w.ActsAll w' where
  toKeeps := h.keeps
  steps hf s' hs' := by
    rcases eq_or_ne s' s with rfl | hne
    · exact h.steps
    · rw [h.view hf hne hs']

end World

open World

theorem masterReapChild_acts {dead : List Waited} :
    ∀ {w w' : World}, masterReapChild w dead = .ok w' → w.ActsAll w' := by
  induction dead with
  | nil =>
    intro w w' h
    obtain rfl := Except.ok.inj h
    exact .refl w
  | cons d dead ih =>
    intro w w' h
    obtain ⟨v, hv, h⟩ := bind_ok_iff.1 h
    obtain ⟨p, -, hacts⟩ := masterReap_acts hv
    exact hacts.all.trans (ih h)

theorem masterTimer_acts {w w' : World} {now : ℤ} (h : masterTimer w now = .ok w') :
    w.ActsAll w' := by
  unfold masterTimer at h
  split at h
  · obtain rfl := Except.ok.inj h
    exact .refl w
  split at h
  · have hacts := (masterUnthrottle_acts h).all
    exact ⟨⟨hacts.head, hacts.nextServ, hacts.size, hacts.listenFd, hacts.statusFd,
        fun fd => ⟨(hacts.slot fd).write, (hacts.slot fd).read⟩⟩,
      fun hf s hs => hacts.steps ⟨hf.listen, hf.status⟩ s hs⟩
  · obtain rfl := Except.ok.inj h
    exact ⟨⟨rfl, rfl, rfl, fun _ => rfl, fun _ => rfl, fun _ => .of_eq rfl⟩, fun _ _ _ => .refl⟩

theorem clocked_acts (w : World) (now : ℤ) : w.ActsAll (w.clocked now) :=
  ⟨⟨rfl, rfl, rfl, fun _ => rfl, fun _ => rfl, fun _ => .of_eq rfl⟩, fun _ _ _ => .refl⟩

/-- The call is a connection event for a throttled service. -/
def MasterOp.OnThrottled (w : World) : MasterOp → Prop
  | .availEvent s _ _ => (w.serv s).flags.throttle = true
  | _ => False

/-- A call that starts no service, and is no connection event for a throttled one, takes every
monitor through steps. -/
theorem masterExec_acts {w w' : World} {op : MasterOp} (h : masterExec w op = .ok w')
    (hstart : ∀ ent fds, op ≠ .start ent fds) (hthr : ¬op.OnThrottled w) : w.ActsAll w' := by
  cases op with
  | start ent fds => exact (hstart ent fds rfl).elim
  | spawn s fork now => exact (masterSpawn_acts h).all
  | throttle s now => exact (masterThrottle_acts h).all
  | unthrottle s now => exact (masterUnthrottle_acts h).all
  | availEvent s fork now =>
    obtain ⟨-, rfl⟩ | ⟨-, ht, -⟩ | ⟨-, -, hspawn⟩ := masterAvailEvent_ok h
    · exact .refl w'
    · exact (hthr ht).elim
    · exact (masterSpawn_acts hspawn).all
  | statusEvent s read => exact (masterStatusEvent_acts h).all
  | reapChild dead => exact masterReapChild_acts h
  | timer now => exact (clocked_acts w now).trans (masterTimer_acts h)

/-- Disabling an interest keeps the callbacks. -/
theorem World.SlotKept.of_without {w : World} {el : EventLoop Unit Callback ServPtr} {fd fd' : ℤ}
    {mask : EventMask}
    (h : w.masterEl.SlotSet el fd { w.masterEl.regEvents fd with mask := mask }) :
    w.SlotKept { w with masterEl := el } fd' := by
  rcases eq_or_ne fd' fd with rfl | hfd
  · constructor <;> simp only [h.slot] <;> split
    · simp
    · rfl
    · simp
    · exact Or.inl ⟨rfl, rfl⟩
  · exact .of_eq (h.of_ne hfd)

/-- No call but a start adds a service or changes the descriptors of one. -/
theorem masterExec_keeps {w w' : World} {op : MasterOp} (h : masterExec w op = .ok w')
    (hstart : ∀ ent fds, op ≠ .start ent fds) : w.Keeps w' := by
  by_cases hthr : op.OnThrottled w
  · cases op with
    | availEvent s fork now =>
      obtain ⟨-, rfl⟩ | ⟨-, -, heq, hset⟩ | ⟨-, -, hspawn⟩ := masterAvailEvent_ok h
      · exact .refl w'
      · rw [heq]
        exact ⟨rfl, rfl, hset.size, fun _ => rfl, fun _ => rfl, fun fd => .of_without hset⟩
      · exact (masterSpawn_acts hspawn).all.toKeeps
    | start | spawn | throttle | unthrottle | statusEvent | reapChild | timer => exact hthr.elim
  · exact (masterExec_acts h hstart hthr).toKeeps

/-! ## Starting a service -/

/-- The new service is in memory, its listen socket is monitored, and so is its status pipe, as
far as the descriptors are inside the table. -/
structure World.Started (w w' : World) (ent : MasterEnt) (fds : ServFds) : Prop where
  listenFd : 0 ≤ fds.listenFd
  eq : w' = { w with
    masterEl := w'.masterEl
    masterHead := w.nextServ :: w.masterHead
    nextServ := w.nextServ + 1
    serv := Function.update w.serv w.nextServ { getMasterEnt ent with
      listenFd := fds.listenFd
      statusFd := fds.status
      flags := { (getMasterEnt ent).flags with listen := true } } }
  size : w'.masterEl.size = w.masterEl.size
  reg : ∀ fd, fd ≠ fds.listenFd → fd ≠ fds.status.1 →
    w'.masterEl.regEvents fd = w.masterEl.regEvents fd
  listen : w'.masterEl.regEvents fds.listenFd = if fds.listenFd < w.masterEl.size then
    (w.masterEl.regEvents fds.listenFd).reading .masterAvailEvent w.nextServ
    else w.masterEl.regEvents fds.listenFd
  status : w'.masterEl.regEvents fds.status.1 = if fds.status.1 < w.masterEl.size then
    (w.masterEl.regEvents fds.status.1).reading .masterStatusEvent w.nextServ
    else w.masterEl.regEvents fds.status.1

/-- A service without children may create one. -/
theorem limitOk_zero {limit : ℤ} (h : 0 ≤ limit) : masterLimitOk limit 0 = true := by
  unfold masterLimitOk
  rw [decide_eq_true_eq]
  omega

theorem getMasterEnt_listenFlag (ent : MasterEnt) (fd : ℤ) :
    ({ getMasterEnt ent with listenFd := fd } : MasterServ).listenFlag = true := by
  have hlimit := limitOk_zero ent.maxProc_nonneg
  simpa [MasterServ.listenFlag, getMasterEnt] using hlimit

/-- Read events on a status pipe that is not enabled. -/
theorem masterStatusInit_ok {w w' : World} {s : ServPtr} {fds : ℤ × ℤ}
    (h : masterStatusInit w s fds = .ok w') :
    (w.serv s).statusFd.1 < 0 ∧ (w.serv s).statusFd.2 < 0 ∧ 0 ≤ fds.1 ∧
    w' = { w with
      masterEl := w'.masterEl
      serv := Function.update w.serv s { w.serv s with statusFd := fds } } ∧
    w.masterEl.SlotSet w'.masterEl fds.1
      ((w.masterEl.regEvents fds.1).reading .masterStatusEvent s) := by
  unfold masterStatusInit at h
  split at h
  · cases h
  rename_i hneg
  simp only [not_or, not_le, ge_iff_le] at hneg
  obtain ⟨r, hr, h⟩ := bind_ok_iff.1 h
  rcases eventEnableRw_spec w.masterEl fds.1 .masterStatusEvent s eventRead with
    ⟨-, herr⟩ | ⟨r', el, hfd, hok, hset⟩
  · simp only [World.updServ, herr] at hr
    cases hr
  · obtain rfl := Except.ok.inj (hok.symm.trans hr)
    obtain rfl := Except.ok.inj h
    exact ⟨hneg.1, hneg.2, hfd, rfl, by simpa [eventRead, EventBase.reading] using hset⟩

namespace World

theorem Started.head {w w' : World} {ent : MasterEnt} {fds : ServFds} (h : w.Started w' ent fds) :
    w'.masterHead = w.nextServ :: w.masterHead :=
  (congrArg World.masterHead h.eq :)

theorem Started.nextServ {w w' : World} {ent : MasterEnt} {fds : ServFds}
    (h : w.Started w' ent fds) : w'.nextServ = w.nextServ + 1 :=
  (congrArg World.nextServ h.eq :)

theorem Started.serv_self {w w' : World} {ent : MasterEnt} {fds : ServFds}
    (h : w.Started w' ent fds) : w'.serv w.nextServ = { getMasterEnt ent with
      listenFd := fds.listenFd
      statusFd := fds.status
      flags := { (getMasterEnt ent).flags with listen := true } } :=
  (congrFun (congrArg World.serv h.eq) w.nextServ :).trans (Function.update_self _ _ _)

theorem Started.serv_of_ne {w w' : World} {ent : MasterEnt} {fds : ServFds}
    (h : w.Started w' ent fds) {s : ServPtr} (hs : s ≠ w.nextServ) : w'.serv s = w.serv s :=
  (congrFun (congrArg World.serv h.eq) s :).trans (Function.update_of_ne hs _ _)

end World

/-- A start that returns has returned descriptors from the kernel and monitors them. -/
theorem masterConfigNew_ok {w w' : World} {ent : MasterEnt} {fds : ServFds}
    (h : masterConfigNew w ent fds = .ok w') (hne : fds.status.1 ≠ fds.listenFd) :
    w.Started w' ent fds := by
  simp only [masterConfigNew, masterStartService] at h
  obtain ⟨v, hv, hst⟩ := bind_ok_iff.1 h
  have hre := masterAvailListen_ok hv
  obtain ⟨-, -, -, heq, hset⟩ := masterStatusInit_ok hst
  have hflag := getMasterEnt_listenFlag ent fds.listenFd
  have hserv := hre.serv
  have hslot := hre.slot
  have hfd := hre.fd
  simp only [masterListenInit, World.updServ, Function.update_self, Function.update_idem,
    hflag] at hre hserv hslot hfd
  have hsize : v.masterEl.size = w.masterEl.size := hre.size
  have hlisten : 0 ≤ fds.listenFd := by simpa [getMasterEnt] using hfd
  refine ⟨hlisten, ?_, hset.size.trans hsize, fun fd hl hs => ?_, ?_, ?_⟩
  · rw [heq, hserv, hre.eq]
    simp
  · rw [hset.of_ne hs]
    exact hre.reg fd (by simpa [masterListenInit, World.updServ] using hl)
  · rw [hset.of_ne hne.symm, hslot]
    by_cases hin : fds.listenFd < w.masterEl.size
    · simp [getMasterEnt, hin]
    · simp [getMasterEnt, hin, not_lt.1 hin]
  · have hold := hre.reg fds.status.1 (by simpa [masterListenInit, World.updServ] using hne)
    rw [hset.slot, hsize]
    split
    · rw [Function.update_self, hold]
    · exact hold

namespace World

/-- The monitor of a service that was started : nobody is available, and the flag is set. -/
theorem Started.view_self {w w' : World} {ent : MasterEnt} {fds : ServFds}
    (h : w.Started w' ent fds) : w'.view w.nextServ =
      { throttled := false, avail := 0, total := 0, max := ent.maxProc, listening := true
        interest := fds.listenFd < w.masterEl.size
        inTable := fds.listenFd < w.masterEl.size } := by
  simp only [World.view, World.interest, h.serv_self, h.size, h.listen, Monitor.mk.injEq,
    true_and, and_true]
  refine ⟨rfl, rfl, rfl, rfl, ?_⟩
  by_cases hin : fds.listenFd < w.masterEl.size
  · simp [hin, EventBase.reading, eventRead]
  · simp [hin]

/-- The other services keep their monitors. -/
theorem Started.view_of_ne {w w' : World} {ent : MasterEnt} {fds : ServFds}
    (h : w.Started w' ent fds) (hun : w.Unused fds) {s : ServPtr} (hs : s ≠ w.nextServ) :
    w'.view s = w.view s := by
  have hlisten : (w.serv s).listenFd ≠ fds.listenFd := fun he => hun.listen.2 ⟨s, Or.inl he⟩
  have hstatus : (w.serv s).listenFd ≠ fds.status.1 := fun he => hun.read.2.1 ⟨s, Or.inl he⟩
  simp only [World.view, World.interest, h.serv_of_ne hs, h.size, h.reg _ hlisten hstatus]

theorem Started.fdsOk {w w' : World} {ent : MasterEnt} {fds : ServFds}
    (h : w.Started w' ent fds) (hun : w.Unused fds) (hf : w.FdsOk) : w'.FdsOk := by
  constructor <;> intro t t'
  all_goals rcases eq_or_ne t w.nextServ with rfl | ht <;>
    rcases eq_or_ne t' w.nextServ with rfl | ht'
  · exact fun _ _ => rfl
  · rw [h.serv_self, h.serv_of_ne ht']
    exact fun _ he => (hun.listen.2 ⟨t', Or.inl he⟩).elim
  · rw [h.serv_self, h.serv_of_ne ht]
    exact fun _ he => (hun.listen.2 ⟨t, Or.inl he.symm⟩).elim
  · rw [h.serv_of_ne ht, h.serv_of_ne ht']
    exact hf.listen t t'
  · rw [h.serv_self]
    exact fun _ => hun.read.2.2
  · rw [h.serv_self, h.serv_of_ne ht']
    exact fun _ he => hun.listen.2 ⟨t', Or.inr (Or.inl he)⟩
  · rw [h.serv_self, h.serv_of_ne ht]
    exact fun _ he => hun.read.2.1 ⟨t, Or.inl he.symm⟩
  · rw [h.serv_of_ne ht, h.serv_of_ne ht']
    exact hf.status t t'

end World

/-! ## Runs -/

/-- When a call can come. A connection event needs read interest in the listen descriptor, and
every service named is on the list. -/
def MasterOp.Allowed (w : World) : MasterOp → Prop
  | .start _ fds => w.Unused fds
  | .availEvent s _ _ => s ∈ w.masterHead ∧ w.interest (w.serv s).listenFd = true
  | .spawn s _ _ | .throttle s _ | .unthrottle s _ | .statusEvent s _ => s ∈ w.masterHead
  | .reapChild _ | .timer _ => True

/-- The master from its start, without a configuration reload. -/
def masterSystem : LTS World MasterOp where
  init w := w = masterInit
  step w op w' := op.Allowed w ∧ masterExec w op = .ok w'

/-- A call other than a start, if it is allowed and does not panic. -/
def masterCall (w : World) (op : MasterOp) : Option World :=
  match op with
  | .start _ _ => none
  | .availEvent s _ _ =>
    if s ∈ w.masterHead ∧ w.interest (w.serv s).listenFd = true then (masterExec w op).toOption
    else none
  | .spawn s _ _ | .throttle s _ | .unthrottle s _ | .statusEvent s _ =>
    if s ∈ w.masterHead then (masterExec w op).toOption else none
  | .reapChild _ | .timer _ => (masterExec w op).toOption

theorem step_of_masterCall {w w' : World} {op : MasterOp} (h : masterCall w op = some w') :
    masterSystem.step w op w' := by
  cases op with
  | start ent fds => cases h
  | reapChild dead => exact ⟨trivial, toOption_eq_some h⟩
  | timer now => exact ⟨trivial, toOption_eq_some h⟩
  | availEvent | spawn | throttle | unthrottle | statusEvent =>
    simp only [masterCall] at h
    split at h
    · exact ⟨‹_›, toOption_eq_some h⟩
    · cases h

/-- At the start no descriptor of a service is open. -/
theorem unused_init {fds : ServFds} (hl : 0 < fds.listenFd) (hr : 0 < fds.status.1)
    (hw : 0 < fds.status.2) (hne : fds.status.1 ≠ fds.listenFd ∧ fds.status.2 ≠ fds.listenFd ∧
      fds.status.2 ≠ fds.status.1) : masterInit.Unused fds := by
  have hopen : ∀ fd : ℤ, 0 < fd → ¬masterInit.Open fd := by
    rintro fd hfd ⟨s, h⟩
    simp only [masterInit, masterServNone] at h
    omega
  exact ⟨⟨hl.ne', hopen _ hl⟩, ⟨hr, hopen _ hr, hne.1⟩, hw, hopen _ hw, hne.2⟩

/-- A start from the beginning, and calls after it, make a run. -/
theorem run_of_calls {ent : MasterEnt} {fds : ServFds} {ops : List MasterOp} {w : World}
    (hun : masterInit.Unused fds)
    (h : ((masterExec masterInit (.start ent fds)).toOption.bind fun v =>
      ops.foldlM masterCall v) = some w) :
    ∃ tr, masterSystem.Run tr w ∧ tr.map (fun m => m.2.1) = .start ent fds :: ops := by
  obtain ⟨v, hv, h⟩ := Option.bind_eq_some_iff.1 h
  obtain ⟨tr, hp, hmap⟩ := LTS.Path.of_foldlM (S := masterSystem)
    (fun _ _ _ => step_of_masterCall) h
  have hst : masterSystem.step masterInit (.start ent fds) v := ⟨hun, toOption_eq_some hv⟩
  exact ⟨_, ⟨_, rfl, hp.cons hst⟩, by simp [hmap]⟩

/-- A service `smtp` with a limit. -/
def smtpEnt (limit : ℕ) : MasterEnt where
  name := "smtp"
  inethost := false
  wakeupTime := 0
  condwake := false
  maxProc := limit
  path := ".//smtpd"
  args := ["smtpd", "-n", "smtp", "-t", "inet"]
  maxProc_nonneg := Int.natCast_nonneg limit
  wakeupTime_nonneg := le_rfl

/-- The descriptors of a first service. -/
def smtpFds : ServFds := ⟨6, 7, 8⟩

theorem smtpFds_unused : masterInit.Unused smtpFds :=
  unused_init (by decide) (by decide) (by decide) (by decide)

end Nowra
