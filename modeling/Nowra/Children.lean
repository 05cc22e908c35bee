import Nowra.Channel
import Nowra.Roster

/-!
# The children and their status pipes

The processes that `master_spawn` forks, as `single_server.c` runs them : a child waits for a
connection, accepts it, notifies the master that it is taken, serves, and notifies the master that
it is available. The notifications of all children of a service go into the status pipe of the
service, from which `master_status_event` reads one at a time.

`Farm` is the master with its children, the pipes, and what was written to each pipe and read from
it. A child keeps the pipe it was forked with. A new configuration entry for a service replaces
the pipe of the service : what is written to the old one is lost.

`Farm.Inv` ties the master's record of a child to the child, through the pipe. What the master has
recorded is the last message it has read, and what it has read and what is in the pipe is all that
the child has written.
-/

namespace Nowra

open World

/-! ## The processes -/

/-- Where a child is in `single_server_accept_inet`. -/
inductive ServerPhase
  /-- In `event_wait`. -/
  | idle
  /-- Between `accept` and the first notification. -/
  | accepted
  /-- In the service. -/
  | serving
  /-- Between the end of the service and the second notification. -/
  | served
  deriving DecidableEq

/-- The next phase, and the status that is notified on the way. -/
def ServerPhase.next : ServerPhase → ServerPhase × Option (BitVec 32)
  | .idle => (.accepted, none)
  | .accepted => (.serving, some masterStatTaken)
  | .serving => (.served, none)
  | .served => (.idle, some masterStatAvail)

/-- The status that was notified last, a new child being available. -/
def ServerPhase.status : ServerPhase → BitVec 32
  | .idle | .accepted => masterStatAvail
  | .serving | .served => masterStatTaken

/-- A process that `master_spawn` has forked. -/
structure Child where
  /-- `var_pid` -/
  pid : MasterPid
  serv : ServPtr
  /-- Which of the pipes that its service has had is the child's `MASTER_STATUS_FD`. -/
  pipe : ℕ
  phase : ServerPhase
  /-- It has not exited. -/
  alive : Bool

/-- The master and its children. A child is named by the address of its record. -/
structure Farm where
  family : Family
  child : ProcPtr → Option Child
  /-- Which of the pipes that a service has had is its pipe now. -/
  pipe : ServPtr → ℕ
  /-- The pipe of a service, with what was written to it and read from it. -/
  channel : ServPtr → Channel ProcPtr MasterStatus

namespace Farm

/-- The master's memory. -/
abbrev world (f : Farm) : World := f.family.world

/-- `master_notify`. Nobody reads an old pipe, and the write fails. -/
def masterNotify (f : Farm) (p : ProcPtr) (c : Child) (status : BitVec 32) :
    Channel ProcPtr MasterStatus :=
  if c.pipe = f.pipe c.serv then (f.channel c.serv).send p ⟨c.pid, status⟩
  else (f.channel c.serv).lose p ⟨c.pid, status⟩

/-- A child takes the next step of its loop. -/
def runChild (f : Farm) (p : ProcPtr) (c : Child) : Farm :=
  { f with
    child := Function.update f.child p (some { c with phase := c.phase.next.1 })
    channel := match c.phase.next.2 with
      | none => f.channel
      | some status => Function.update f.channel c.serv (f.masterNotify p c status) }

/-- A child exits. -/
def exitChild (f : Farm) (p : ProcPtr) (c : Child) : Farm :=
  { f with child := Function.update f.child p (some { c with alive := false }) }

/-- The children after a call of the master that has forked one. -/
def born (f : Farm) : Option (ServPtr × MasterPid) → ProcPtr → Option Child
  | none => f.child
  | some (s, pid) =>
    Function.update f.child f.world.nextProc (some ⟨pid, s, f.pipe s, .idle, true⟩)

/-- The status pipe of a service is replaced. -/
def reopened (f : Farm) : Option ServPtr → Farm
  | none => f
  | some s => { f with
      pipe := Function.update f.pipe s (f.pipe s + 1)
      channel := Function.update f.channel s .empty }

/-- No message of a former owner of the pid is unread. -/
def PidFree (f : Farm) (pid : MasterPid) : Prop :=
  ∀ s < f.world.nextServ, ∀ x ∈ (f.channel s).queue, x.2.pid ≠ pid

/-- No process with the pid is alive. -/
def Exited (f : Farm) (pid : MasterPid) : Prop :=
  ∀ p < f.world.nextProc, ∀ c ∈ f.child p, c.pid = pid → c.alive = false

end Farm

/-- What happens to the master and its children. -/
inductive FarmOp
  /-- A call that reaches the master, but a status event. -/
  | call (op : MasterOp)
  /-- An entry of the configuration file is read. -/
  | entry (ent : MasterEnt) (fds : ServFds)
  /-- A status event, for the next message in the pipe of the service. -/
  | read (s : ServPtr)
  | run (p : ProcPtr)
  | exit (p : ProcPtr)

/-- One step. A pid is free when `fork` returns it, and `waitpid` returns processes that have
exited. -/
inductive FarmStep : Farm → FarmOp → Farm → Prop
  | call {f : Farm} {op : MasterOp} {family : Family}
      (hread : ∀ s read, op ≠ .statusEvent s read)
      (hst : reloadSystem.step f.family (.call op) family)
      (hpid : ∀ s pid, op.forks f.world = some (s, pid) → f.PidFree pid)
      (hdead : ∀ d ∈ op.reaped, f.Exited d.pid) :
      FarmStep f (.call op) { f with family := family, child := f.born (op.forks f.world) }
  | entry {f : Farm} {ent : MasterEnt} {fds : ServFds} {family : Family}
      (hst : reloadSystem.step f.family (.entry ent fds) family) :
      FarmStep f (.entry ent fds) { f.reopened (f.world.entryOf ent) with family := family }
  | read {f : Farm} {s : ServPtr} {p : ProcPtr} {stat : MasterStatus}
      {queue : List (ProcPtr × MasterStatus)} {family : Family}
      (hqueue : (f.channel s).queue = (p, stat) :: queue)
      (hevent : (f.world.serv s).statusFd.1 ≠ 0)
      (hst : reloadSystem.step f.family (.call (.statusEvent s (.stat stat))) family) :
      FarmStep f (.read s) { f with
        family := family
        channel := Function.update f.channel s (f.channel s).receive }
  | run {f : Farm} {p : ProcPtr} {c : Child} (hc : f.child p = some c) (ha : c.alive = true) :
      FarmStep f (.run p) (f.runChild p c)
  | exit {f : Farm} {p : ProcPtr} {c : Child} (hc : f.child p = some c) (ha : c.alive = true) :
      FarmStep f (.exit p) (f.exitChild p c)

instance (f : Farm) (pid : MasterPid) : Decidable (f.PidFree pid) :=
  inferInstanceAs (Decidable (∀ s < _, ∀ x ∈ _, _))

instance (f : Farm) (pid : MasterPid) : Decidable (f.Exited pid) :=
  inferInstanceAs (Decidable (∀ p < _, ∀ c ∈ f.child p, _))

/-- The master without children. -/
def farmInit : Farm := ⟨⟨masterInit, ∅⟩, fun _ => none, fun _ => 0, fun _ => .empty⟩

/-- The master with its children, from its start. -/
def farmSystem : LTS Farm FarmOp where
  init f := f = farmInit
  step := FarmStep

/-! ## The invariant -/

/-- The last status of a list of messages, a new child being available. -/
def lastStatus (l : List MasterStatus) : BitVec 32 :=
  (l.getLast?.map (·.avail)).getD masterStatAvail

@[simp] theorem lastStatus_nil : lastStatus [] = masterStatAvail := rfl

@[simp] theorem lastStatus_append (l : List MasterStatus) (stat : MasterStatus) :
    lastStatus (l ++ [stat]) = stat.avail := by
  simp [lastStatus]

namespace Farm

/-- A child whose messages go to the master : none is lost, its record has the status of the last
one that was read, and its phase that of the last one that was written. -/
structure Linked (f : Farm) (p : ProcPtr) (c : Child) : Prop where
  fifo : (f.channel c.serv).Fifo p
  avail : p ∈ f.world.children →
    (f.world.proc p).avail = lastStatus ((f.channel c.serv).received p)
  phase : lastStatus ((f.channel c.serv).sent p) = c.phase.status

/-- The master's records, the processes and the pipes agree. -/
structure Inv (f : Farm) : Prop where
  managed : f.family.Managed
  known : ∀ p ∈ f.world.children, ∃ c, f.child p = some c
  record : ∀ p c, f.child p = some c → p < f.world.nextProc ∧ (f.world.proc p).pid = c.pid ∧
    (f.world.proc p).serv = c.serv ∧ c.serv < f.world.nextServ ∧ c.pipe ≤ f.pipe c.serv
  alive : ∀ p c, f.child p = some c → c.alive = true → p ∈ f.world.children
  /-- A message in a pipe is from a child that writes to it. -/
  queued : ∀ s, ∀ x ∈ (f.channel s).queue, ∃ c, f.child x.1 = some c ∧ c.serv = s ∧
    c.pipe = f.pipe s ∧ x.2.pid = c.pid ∧
    (x.2.avail = masterStatAvail ∨ x.2.avail = masterStatTaken)
  /-- The pid of a message in a pipe finds the record of its sender, or none. -/
  owner : ∀ s, ∀ x ∈ (f.channel s).queue, ∀ q ∈ f.world.children,
    (f.world.proc q).pid = x.2.pid → q = x.1
  unborn : ∀ s p, f.child p = none →
    (f.channel s).sent p = [] ∧ (f.channel s).received p = []
  linked : ∀ p c, f.child p = some c → c.pipe = f.pipe c.serv → f.Linked p c
  unheard : ∀ p c, f.child p = some c → c.pipe < f.pipe c.serv →
    (f.channel c.serv).received p = []

theorem inv_init : farmInit.Inv where
  managed := managed_init
  known := by simp [farmInit, world, children, masterInit, binhashList]
  record := nofun
  alive := nofun
  queued := nofun
  owner := nofun
  unborn _ _ _ := ⟨rfl, rfl⟩
  linked := nofun
  unheard := nofun

/-- The next address is of no child. -/
theorem Inv.child_next {f : Farm} (h : f.Inv) : f.child f.world.nextProc = none := by
  cases hc : f.child f.world.nextProc with
  | none => rfl
  | some c => exact ((h.record _ c hc).1.ne rfl).elim

/-- The processes after a call are those before it and the one that was forked. -/
theorem Inv.born_eq_some {f : Farm} (h : f.Inv) {forked : Option (ServPtr × MasterPid)}
    {p : ProcPtr} {c : Child} : f.born forked p = some c ↔ f.child p = some c ∨
      ∃ s pid, forked = some (s, pid) ∧ p = f.world.nextProc ∧
        c = ⟨pid, s, f.pipe s, .idle, true⟩ := by
  cases forked with
  | none => simp [born]
  | some x =>
    obtain ⟨s, pid⟩ := x
    rcases eq_or_ne p f.world.nextProc with rfl | hne
    · rw [h.child_next]
      simp [born, eq_comm]
    · simp [born, hne]

theorem Inv.born_of_some {f : Farm} (h : f.Inv) {forked : Option (ServPtr × MasterPid)}
    {p : ProcPtr} {c : Child} (hc : f.child p = some c) : f.born forked p = some c :=
  h.born_eq_some.2 (Or.inl hc)

/-- A message in a pipe is of a service that exists. -/
theorem Inv.queued_lt {f : Farm} (h : f.Inv) {s : ServPtr} {x : ProcPtr × MasterStatus}
    (hx : x ∈ (f.channel s).queue) : s < f.world.nextServ := by
  obtain ⟨c, hc, rfl, -⟩ := h.queued s x hx
  exact (h.record _ c hc).2.2.2.1

/-- A new child has written nothing. -/
theorem Inv.fifo_next {f : Farm} (h : f.Inv) (s : ServPtr) :
    (f.channel s).Fifo f.world.nextProc := by
  obtain ⟨hsent, hreceived⟩ := h.unborn s _ h.child_next
  have hflight : (f.channel s).inFlight f.world.nextProc = [] := by
    refine Channel.inFlight_eq_nil fun x hx he => ?_
    obtain ⟨c, hc, -⟩ := h.queued s x hx
    rw [he, h.child_next] at hc
    cases hc
  rw [Channel.Fifo, hsent, hreceived, hflight, List.append_nil]

/-- The master has called, and the child that it forked is there. -/
theorem Inv.enrolled {f : Farm} (h : f.Inv) {family : Family}
    {forked : Option (ServPtr × MasterPid)} (hm : family.Managed)
    (he : f.world.Enrolls family.world forked) (hnext : f.world.nextServ ≤ family.world.nextServ)
    (hpid : ∀ s pid, forked = some (s, pid) → f.PidFree pid)
    (halive : ∀ p c, f.child p = some c → c.alive = true → p ∈ family.world.children) :
    Inv { f with family := family, child := f.born forked } := by
  have hcases := fun p hp => he.mem_cases hm.account (p := p) hp
  refine ⟨hm, fun p hp => ?_, fun p c hc => ?_, fun p c hc ha => ?_, fun s x hx => ?_,
    fun s x hx q hq hpid' => ?_, fun s p hc => ?_, fun p c hc hpipe => ?_, fun p c hc hpipe => ?_⟩
  · obtain ⟨-, hold, -⟩ | ⟨s, pid, hforked, rfl⟩ := hcases p hp
    · obtain ⟨c, hc⟩ := h.known p hold
      exact ⟨c, h.born_of_some hc⟩
    · exact ⟨_, h.born_eq_some.2 (Or.inr ⟨s, pid, hforked, rfl, rfl⟩)⟩
  · rcases h.born_eq_some.1 hc with hc | ⟨s, pid, hforked, rfl, rfl⟩
    · obtain ⟨hlt, hp, hs, hserv, hle⟩ := h.record p c hc
      obtain ⟨hp', hs'⟩ := he.roster.ident p hlt
      exact ⟨hlt.trans_le he.roster.nextProc, hp'.trans hp, hs'.trans hs, hserv.trans_le hnext, hle⟩
    · have hborn := he.born s pid hforked
      refine ⟨?_, hborn.pid, hborn.serv, ?_, le_rfl⟩
      · rw [hborn.nextProc]
        exact Nat.lt_succ_self _
      · have hserv := (hm.account.fresh _ hborn.mem).2
        rwa [hborn.serv] at hserv
  · rcases h.born_eq_some.1 hc with hc | ⟨s, pid, hforked, rfl, rfl⟩
    · exact halive p c hc ha
    · exact (he.born s pid hforked).mem
  · obtain ⟨c, hc, hrest⟩ := h.queued s x hx
    exact ⟨c, h.born_of_some hc, hrest⟩
  · obtain ⟨hlt, hold, -⟩ | ⟨t, pid, hforked, rfl⟩ := hcases q hq
    · exact h.owner s x hx q hold ((he.roster.ident q hlt).1.symm.trans hpid')
    · have hfree := hpid t pid hforked s (h.queued_lt hx) x hx
      exact (hfree (hpid'.symm.trans (he.born t pid hforked).pid)).elim
  · refine h.unborn s p ?_
    cases hold : f.child p with
    | none => rfl
    | some c =>
      have hc' : f.born forked p = some c := h.born_of_some hold
      exact (Option.some_ne_none c (hc'.symm.trans hc)).elim
  · rcases h.born_eq_some.1 hc with hc | ⟨s, pid, hforked, rfl, rfl⟩
    · obtain ⟨hfifo, havail, hphase⟩ := h.linked p c hc hpipe
      refine ⟨hfifo, fun hp => ?_, hphase⟩
      obtain ⟨-, hold, hkept⟩ | ⟨s, pid, -, rfl⟩ := hcases p hp
      · exact hkept.trans (havail hold)
      · exact ((h.record _ c hc).1.ne rfl).elim
    · obtain ⟨hsent, hreceived⟩ := h.unborn s _ h.child_next
      refine ⟨h.fifo_next s, fun _ => ?_, ?_⟩
      · simp only [hreceived]
        exact (he.born s pid hforked).avail
      · simp only [hsent]
        rfl
  · rcases h.born_eq_some.1 hc with hc | ⟨s, pid, hforked, rfl, rfl⟩
    · exact h.unheard p c hc hpipe
    · exact (lt_irrefl _ hpipe).elim

@[simp] theorem reopened_pipe_self (f : Farm) (s : ServPtr) :
    (f.reopened (some s)).pipe s = f.pipe s + 1 :=
  Function.update_self _ _ _

@[simp] theorem reopened_channel_self (f : Farm) (s : ServPtr) :
    (f.reopened (some s)).channel s = .empty :=
  Function.update_self _ _ _

theorem reopened_pipe_of_ne (f : Farm) {s t : ServPtr} (h : t ≠ s) :
    (f.reopened (some s)).pipe t = f.pipe t :=
  Function.update_of_ne h _ _

theorem reopened_channel_of_ne (f : Farm) {s t : ServPtr} (h : t ≠ s) :
    (f.reopened (some s)).channel t = f.channel t :=
  Function.update_of_ne h _ _

/-- Every child that writes to the old pipe is cut off. -/
theorem Inv.reopened {f : Farm} (h : f.Inv) (o : Option ServPtr) : (f.reopened o).Inv := by
  cases o with
  | none => exact h
  | some s =>
    have hchannel := fun t (ht : t ≠ s) => f.reopened_channel_of_ne ht
    have hpipe := fun t (ht : t ≠ s) => f.reopened_pipe_of_ne ht
    refine ⟨h.managed, h.known, fun p c hc => ?_, h.alive, fun t x hx => ?_, fun t x hx => ?_,
      fun t p hc => ?_, fun p c hc hp => ?_, fun p c hc hp => ?_⟩
    · obtain ⟨hlt, hpid, hserv, hs, hle⟩ := h.record p c hc
      refine ⟨hlt, hpid, hserv, hs, ?_⟩
      rcases eq_or_ne c.serv s with he | hne
      · rw [he] at hle ⊢
        rw [reopened_pipe_self]
        exact hle.trans (Nat.le_succ _)
      · rwa [hpipe _ hne]
    · rcases eq_or_ne t s with rfl | hne
      · rw [reopened_channel_self] at hx
        cases hx
      · rw [hchannel t hne] at hx
        rw [hpipe t hne]
        exact h.queued t x hx
    · rcases eq_or_ne t s with rfl | hne
      · rw [reopened_channel_self] at hx
        cases hx
      · rw [hchannel t hne] at hx
        exact h.owner t x hx
    · rcases eq_or_ne t s with rfl | hne
      · rw [reopened_channel_self]
        exact ⟨rfl, rfl⟩
      · rw [hchannel t hne]
        exact h.unborn t p hc
    · rcases eq_or_ne c.serv s with he | hne
      · have hle := (h.record p c hc).2.2.2.2
        rw [he] at hle hp
        rw [reopened_pipe_self] at hp
        omega
      · rw [hpipe _ hne] at hp
        obtain ⟨hfifo, havail, hphase⟩ := h.linked p c hc hp
        rw [← hchannel _ hne] at hfifo havail hphase
        exact ⟨hfifo, havail, hphase⟩
    · rcases eq_or_ne c.serv s with he | hne
      · rw [he, reopened_channel_self]
        rfl
      · rw [hpipe _ hne] at hp
        rw [hchannel _ hne]
        exact h.unheard p c hc hp

/-- The master reads a message, and writes its status into the record of the sender. -/
theorem Inv.read {f : Farm} (h : f.Inv) {s : ServPtr} {p : ProcPtr} {stat : MasterStatus}
    {queue : List (ProcPtr × MasterStatus)} {family : Family} (hm : family.Managed)
    (hqueue : (f.channel s).queue = (p, stat) :: queue)
    (hnext : f.world.nextServ = family.world.nextServ)
    (hr : f.world.Reported family.world stat) :
    Inv { f with
      family := family
      channel := Function.update f.channel s (f.channel s).receive } := by
  have hmem : (p, stat) ∈ (f.channel s).queue := by
    rw [hqueue]
    exact List.mem_cons_self
  obtain ⟨c, hc, hserv, hpipe, hpid, -⟩ := h.queued s _ hmem
  have hself : Function.update f.channel s (f.channel s).receive s = (f.channel s).receive :=
    Function.update_self _ _ _
  have hsub := Channel.update_rel (f := f.channel) (fun _ c c' => c'.queue ⊆ c.queue)
    (f.channel s).receive_queue_subset fun _ _ => List.Subset.refl _
  have hsent := Channel.update_rel (f := f.channel) (fun _ c c' => c'.sent = c.sent)
    (f.channel s).receive_sent fun _ _ => rfl
  have hreceived := fun q (hq : q ≠ p) => Channel.update_rel (f := f.channel)
    (fun _ c c' => c'.received q = c.received q) (Channel.receive_received_of_ne hqueue hq)
    fun _ _ => rfl
  have hfifo := fun q => Channel.update_rel (f := f.channel) (fun _ c c' => c.Fifo q → c'.Fifo q)
    (Channel.Fifo.receive (c := f.channel s)) fun _ _ => id
  refine ⟨hm, fun q hq => h.known q (hr.children ▸ hq), fun q d hd => ?_, fun q d hd ha => ?_,
    fun t x hx => h.queued t x (hsub t hx), fun t x hx q hq he => ?_, fun t q hd => ?_,
    fun q d hd hp => ?_, fun q d hd hp => ?_⟩
  · obtain ⟨hlt, hpid', hserv', hs, hle⟩ := h.record q d hd
    exact ⟨hr.nextProc ▸ hlt, (hr.ident q).1.trans hpid', (hr.ident q).2.trans hserv', hnext ▸ hs,
      hle⟩
  · rw [world, hr.children]
    exact h.alive q d hd ha
  · rw [world, hr.children] at hq
    exact h.owner t x (hsub t hx) q hq ((hr.ident q).1.symm.trans he)
  · have hq : q ≠ p := by
      rintro rfl
      exact Option.some_ne_none c (hc.symm.trans hd)
    simp only [hsent, hreceived q hq]
    exact h.unborn t q hd
  · obtain ⟨hold, havail, hphase⟩ := h.linked q d hd hp
    refine ⟨hfifo q _ hold, fun hq => ?_, by simpa only [hsent] using hphase⟩
    rw [world, hr.children] at hq
    rw [hr.avail q hq]
    by_cases hqp : q = p
    · subst hqp
      obtain rfl := Option.some.inj (hc.symm.trans hd)
      have hpid' : (f.world.proc q).pid = stat.pid := (h.record q c hc).2.1.trans hpid.symm
      rw [if_pos hpid', hserv]
      simp only [hself]
      rw [Channel.receive_received_self hqueue, lastStatus_append]
    · have hpid' : (f.world.proc q).pid ≠ stat.pid := fun he => hqp (h.owner s _ hmem q hq he)
      simp only [if_neg hpid', hreceived q hqp]
      exact havail hq
  · have hq : q ≠ p := by
      rintro rfl
      obtain rfl := Option.some.inj (hc.symm.trans hd)
      have hlt : c.pipe < f.pipe s := hserv ▸ hp
      omega
    simp only [hreceived q hq]
    exact h.unheard q d hd hp

/-- A process that has changed is the same process. -/
theorem child_update {f : Farm} {p : ProcPtr} {c : Child} (c' : Child) (hc : f.child p = some c)
    (hpid : c'.pid = c.pid) (hserv : c'.serv = c.serv) (hpipe : c'.pipe = c.pipe)
    (ha : c'.alive = true → c.alive = true) {q : ProcPtr} {d : Child}
    (hd : Function.update f.child p (some c') q = some d) :
    ∃ d', f.child q = some d' ∧ d.pid = d'.pid ∧ d.serv = d'.serv ∧ d.pipe = d'.pipe ∧
      (d.alive = true → d'.alive = true) ∧ ((q = p ∧ d = c' ∧ d' = c) ∨ (q ≠ p ∧ d = d')) := by
  rcases eq_or_ne q p with rfl | hne
  · rw [Function.update_self] at hd
    obtain rfl := Option.some.inj hd
    exact ⟨c, hc, hpid, hserv, hpipe, ha, Or.inl ⟨rfl, rfl, rfl⟩⟩
  · rw [Function.update_of_ne hne] at hd
    exact ⟨d, hd, rfl, rfl, rfl, id, Or.inr ⟨hne, rfl⟩⟩

/-- Every process is still there. -/
theorem exists_child_update {f : Farm} {p : ProcPtr} {c : Child} (c' : Child)
    (hc : f.child p = some c) (hpid : c'.pid = c.pid) (hserv : c'.serv = c.serv)
    (hpipe : c'.pipe = c.pipe) {q : ProcPtr} {d : Child} (hd : f.child q = some d) :
    ∃ d', Function.update f.child p (some c') q = some d' ∧
      d'.pid = d.pid ∧ d'.serv = d.serv ∧ d'.pipe = d.pipe := by
  rcases eq_or_ne q p with rfl | hne
  · obtain rfl := Option.some.inj (hc.symm.trans hd)
    exact ⟨c', Function.update_self _ _ _, hpid, hserv, hpipe⟩
  · exact ⟨d, (Function.update_of_ne hne _ _).trans hd, rfl, rfl, rfl⟩

theorem child_eq_none_of_update {f : Farm} {p : ProcPtr} {c : Child} (hc : f.child p = some c)
    (c' : Child) {q : ProcPtr} (hq : Function.update f.child p (some c') q = none) :
    q ≠ p ∧ f.child q = none := by
  rcases eq_or_ne q p with rfl | hne
  · rw [Function.update_self] at hq
    cases hq
  · exact ⟨hne, (Function.update_of_ne hne _ _).symm.trans hq⟩

/-- What the master knows of its children holds when one of them has changed. -/
theorem Inv.changed {f : Farm} (h : f.Inv) {p : ProcPtr} {c : Child} (c' : Child)
    (hc : f.child p = some c) (hpid : c'.pid = c.pid) (hserv : c'.serv = c.serv)
    (hpipe : c'.pipe = c.pipe) (ha : c'.alive = true → c.alive = true) :
    (∀ q ∈ f.world.children, ∃ d, Function.update f.child p (some c') q = some d) ∧
    (∀ q d, Function.update f.child p (some c') q = some d →
      q < f.world.nextProc ∧ (f.world.proc q).pid = d.pid ∧ (f.world.proc q).serv = d.serv ∧
        d.serv < f.world.nextServ ∧ d.pipe ≤ f.pipe d.serv) ∧
    ∀ q d, Function.update f.child p (some c') q = some d → d.alive = true →
      q ∈ f.world.children := by
  refine ⟨fun q hq => ?_, fun q d hd => ?_, fun q d hd hda => ?_⟩
  · obtain ⟨d, hd⟩ := h.known q hq
    obtain ⟨d', hd', -⟩ := exists_child_update c' hc hpid hserv hpipe hd
    exact ⟨d', hd'⟩
  · obtain ⟨d', hd', hpid', hserv', hpipe', -⟩ :=
      child_update c' hc hpid hserv hpipe ha hd
    rw [hpid', hserv', hpipe']
    exact h.record q d' hd'
  · obtain ⟨d', hd', -, -, -, hda', -⟩ := child_update c' hc hpid hserv hpipe ha hd
    exact h.alive q d' hd' (hda' hda)

/-- A process has changed, without a notification. -/
theorem Inv.moved {f : Farm} (h : f.Inv) {p : ProcPtr} {c c' : Child} (hc : f.child p = some c)
    (hpid : c'.pid = c.pid) (hserv : c'.serv = c.serv) (hpipe : c'.pipe = c.pipe)
    (ha : c'.alive = true → c.alive = true) (hphase : c'.phase.status = c.phase.status) :
    Inv { f with child := Function.update f.child p (some c') } := by
  have hback := fun q d => child_update (q := q) (d := d) c' hc hpid hserv hpipe ha
  have hforth := fun q d => exists_child_update (q := q) (d := d) c' hc hpid hserv hpipe
  obtain ⟨hknown, hrecord, halive⟩ := h.changed c' hc hpid hserv hpipe ha
  refine ⟨h.managed, hknown, hrecord, halive, fun t x hx => ?_, h.owner, fun t q hd => ?_,
    fun q d hd hp => ?_, fun q d hd hp => ?_⟩
  · obtain ⟨d, hd, hs, hpipe', hpid', hok⟩ := h.queued t x hx
    obtain ⟨d', hd', e1, e2, e3⟩ := hforth x.1 d hd
    exact ⟨d', hd', e2.trans hs, e3.trans hpipe', hpid'.trans e1.symm, hok⟩
  · exact h.unborn t q (child_eq_none_of_update hc c' hd).2
  · obtain ⟨d', hd', -, hserv', hpipe', -, hd''⟩ := hback q d hd
    rw [hpipe', hserv'] at hp
    obtain ⟨hfifo, havail, hph⟩ := h.linked q d' hd' hp
    rw [← hserv'] at hfifo havail hph
    refine ⟨hfifo, havail, hph.trans ?_⟩
    obtain ⟨-, rfl, rfl⟩ | ⟨-, rfl⟩ := hd''
    · exact hphase.symm
    · rfl
  · obtain ⟨d', hd', -, hserv', hpipe', -⟩ := hback q d hd
    rw [hpipe', hserv'] at hp
    rw [hserv']
    exact h.unheard q d' hd' hp

theorem masterNotify_received (f : Farm) (p : ProcPtr) (c : Child) (status : BitVec 32) :
    (f.masterNotify p c status).received = (f.channel c.serv).received := by
  unfold masterNotify
  split <;> rfl

theorem masterNotify_sent (f : Farm) (p : ProcPtr) (c : Child) (status : BitVec 32) :
    (f.masterNotify p c status).sent = ((f.channel c.serv).lose p ⟨c.pid, status⟩).sent := by
  unfold masterNotify
  split <;> rfl

/-- A message is in the pipe if it was, or if it has just been written to it. -/
theorem mem_masterNotify_queue {f : Farm} {p : ProcPtr} {c : Child} {status : BitVec 32}
    {x : ProcPtr × MasterStatus} (hx : x ∈ (f.masterNotify p c status).queue) :
    x ∈ (f.channel c.serv).queue ∨ (c.pipe = f.pipe c.serv ∧ x = (p, ⟨c.pid, status⟩)) := by
  unfold masterNotify at hx
  split at hx
  · rename_i hpipe
    rw [Channel.send_queue, List.mem_append, List.mem_singleton] at hx
    exact hx.imp_right fun he => ⟨hpipe, he⟩
  · exact Or.inl hx

theorem masterNotify_fifo {f : Farm} {p q : ProcPtr} {c : Child} {status : BitVec 32}
    (h : (f.channel c.serv).Fifo q) (hq : q ≠ p ∨ c.pipe = f.pipe c.serv) :
    (f.masterNotify p c status).Fifo q := by
  unfold masterNotify
  split
  · exact h.send p _
  · rename_i hpipe
    exact h.lose _ (hq.resolve_right hpipe)

/-- A child notifies the master. -/
theorem Inv.notified {f : Farm} (h : f.Inv) {p : ProcPtr} {c : Child} {phase : ServerPhase}
    {status : BitVec 32} (hc : f.child p = some c) (ha : c.alive = true)
    (hstatus : status = masterStatAvail ∨ status = masterStatTaken)
    (hphase : phase.status = status) :
    Inv { f with
      child := Function.update f.child p (some { c with phase := phase })
      channel := Function.update f.channel c.serv (f.masterNotify p c status) } := by
  have hback := fun q d =>
    child_update (q := q) (d := d) { c with phase := phase } hc rfl rfl rfl id
  have hforth := fun q d =>
    exists_child_update (q := q) (d := d) { c with phase := phase } hc rfl rfl rfl
  have hmem := h.alive p c hc ha
  obtain ⟨-, hpid, -⟩ := h.record p c hc
  have hself : Function.update f.channel c.serv (f.masterNotify p c status) c.serv =
      f.masterNotify p c status := Function.update_self _ _ _
  have hreceived := Channel.update_rel (f := f.channel) (fun _ c c' => c'.received = c.received)
    (f.masterNotify_received p c status) fun _ _ => rfl
  have hsent := fun q (hq : q ≠ p) => Channel.update_rel (f := f.channel)
    (fun _ c c' => c'.sent q = c.sent q)
    ((congrFun (f.masterNotify_sent p c status) q).trans (Channel.lose_sent_of_ne _ _ hq))
    fun _ _ => rfl
  have hqueue := Channel.update_rel (f := f.channel) (fun t d d' => ∀ x ∈ d'.queue, x ∈ d.queue ∨
      (t = c.serv ∧ c.pipe = f.pipe c.serv ∧ x = (p, ⟨c.pid, status⟩)))
    (fun x hx => (mem_masterNotify_queue hx).imp_right fun hn => ⟨rfl, hn⟩) fun _ _ _ => Or.inl
  have hfifo := fun q (hq : q ≠ p ∨ c.pipe = f.pipe c.serv) => Channel.update_rel (f := f.channel)
    (c := f.masterNotify p c status) (fun _ d d' => d.Fifo q → d'.Fifo q)
    (fun hd => masterNotify_fifo hd hq) fun _ _ => id
  obtain ⟨hknown, hrecord, halive⟩ := h.changed { c with phase := phase } hc rfl rfl rfl id
  refine ⟨h.managed, hknown, hrecord, halive, fun t x hx => ?_, fun t x hx q hq hpid' => ?_,
    fun t q hd => ?_, fun q d hd hp => ?_, fun q d hd hp => ?_⟩
  · rcases hqueue t x hx with hx | ⟨rfl, hpipe, rfl⟩
    · obtain ⟨d, hd, hs, hpipe', hpid', hok⟩ := h.queued t x hx
      obtain ⟨d', hd', e1, e2, e3⟩ := hforth x.1 d hd
      exact ⟨d', hd', e2.trans hs, e3.trans hpipe', hpid'.trans e1.symm, hok⟩
    · exact ⟨_, Function.update_self _ _ _, rfl, hpipe, rfl, hstatus⟩
  · rcases hqueue t x hx with hx | ⟨rfl, hpipe, rfl⟩
    · exact h.owner t x hx q hq hpid'
    · exact h.managed.account.eq_of_pid hq hmem (hpid'.trans hpid.symm)
  · obtain ⟨hne, hold⟩ := child_eq_none_of_update hc _ hd
    simp only [hsent q hne, hreceived]
    exact h.unborn t q hold
  · obtain ⟨d', hd', -, hserv', hpipe', -, hd''⟩ := hback q d hd
    rw [hpipe', hserv'] at hp
    obtain ⟨hold, havail, hph⟩ := h.linked q d' hd' hp
    rw [← hserv'] at hold havail hph
    have hq : q ≠ p ∨ c.pipe = f.pipe c.serv := by
      obtain ⟨-, -, rfl⟩ | ⟨hne, -⟩ := hd''
      · exact Or.inr hp
      · exact Or.inl hne
    refine ⟨hfifo q hq _ hold, by simpa only [hreceived] using havail, ?_⟩
    obtain ⟨rfl, rfl, rfl⟩ | ⟨hne, rfl⟩ := hd''
    · simp only [hself, masterNotify_sent, Channel.lose_sent_self, lastStatus_append]
      exact hphase.symm
    · simp only [hsent q hne]
      exact hph
  · obtain ⟨d', hd', -, hserv', hpipe', -⟩ := hback q d hd
    rw [hpipe', hserv'] at hp
    simp only [hreceived, hserv']
    exact h.unheard q d' hd' hp

/-- A process is the same one after a step of a child. -/
theorem child_of_runChild {f : Farm} {p : ProcPtr} {c : Child} (hc : f.child p = some c)
    {q : ProcPtr} {d : Child} (hd : (f.runChild p c).child q = some d) :
    ∃ d', f.child q = some d' ∧ d.serv = d'.serv ∧ d.pipe = d'.pipe ∧ d.alive = d'.alive := by
  obtain ⟨d', hold, -, hserv, hpipe, -, ⟨-, rfl, rfl⟩ | ⟨-, rfl⟩⟩ :=
    child_update { c with phase := c.phase.next.1 } hc rfl rfl rfl id hd
  · exact ⟨d', hold, hserv, hpipe, rfl⟩
  · exact ⟨d, hold, rfl, rfl, rfl⟩

theorem child_of_exitChild {f : Farm} {p : ProcPtr} {c : Child} (hc : f.child p = some c)
    {q : ProcPtr} {d : Child} (hd : (f.exitChild p c).child q = some d) :
    ∃ d', f.child q = some d' ∧ d.serv = d'.serv ∧ d.pipe = d'.pipe ∧
      (d.alive = true → d'.alive = true) := by
  obtain ⟨d', hold, -, hserv, hpipe, ha, -⟩ :=
    child_update { c with alive := false } hc rfl rfl rfl (by simp) hd
  exact ⟨d', hold, hserv, hpipe, ha⟩

/-- A child that takes the next step of its loop keeps the invariant. -/
theorem Inv.run {f : Farm} (h : f.Inv) {p : ProcPtr} {c : Child} (hc : f.child p = some c)
    (ha : c.alive = true) : (f.runChild p c).Inv := by
  unfold runChild
  cases hphase : c.phase with
  | idle | serving => exact h.moved hc rfl rfl rfl id (by rw [hphase]; rfl)
  | accepted => exact h.notified hc ha (Or.inr rfl) rfl
  | served => exact h.notified hc ha (Or.inl rfl) rfl

theorem Inv.exit {f : Farm} (h : f.Inv) {p : ProcPtr} {c : Child} (hc : f.child p = some c) :
    (f.exitChild p c).Inv :=
  h.moved hc rfl rfl rfl (by simp) rfl

/-- A process that is alive stays in the table. -/
theorem Inv.stays {f : Farm} (h : f.Inv) {op : MasterOp} {family : Family}
    (hst : reloadSystem.step f.family (.call op) family) (hm : family.Managed)
    (he : f.world.Enrolls family.world (op.forks f.world))
    (hdead : ∀ d ∈ op.reaped, f.Exited d.pid) {p : ProcPtr} {c : Child}
    (hc : f.child p = some c) (ha : c.alive = true) : p ∈ family.world.children := by
  obtain ⟨⟨-, hker⟩, -, hkids⟩ := hst
  obtain ⟨hlt, hpid, -⟩ := h.record p c hc
  refine he.stays h.managed.account hm.account hker hkids (h.alive p c hc ha) fun d hd hdp => ?_
  have hexited := hdead d hd p hlt c hc (hpid.symm.trans hdp.symm)
  rw [ha] at hexited
  cases hexited

/-- No call takes a service off the memory. -/
theorem masterExec_nextServ {w w' : World} {op : MasterOp} (hallow : op.Allowed w)
    (h : masterExec w op = .ok w') : w.nextServ ≤ w'.nextServ := by
  by_cases hstart : ∃ ent fds, op = .start ent fds
  · obtain ⟨ent, fds, rfl⟩ := hstart
    rw [(masterConfigNew_ok h hallow.read.2.2).nextServ]
    exact Nat.le_succ _
  · exact (masterExec_keeps h fun ent fds he => hstart ⟨ent, fds, he⟩).nextServ.ge

/-- An entry leaves the records alone. -/
theorem masterConfigEnt_enrolls {w w' : World} {ent : MasterEnt} {fds : ServFds}
    (hfds : w.EntryFds ent fds) (h : masterConfigEnt w (ent, fds) = .ok w') :
    w.Enrolls w' none ∧ w.nextServ ≤ w'.nextServ ∧ w'.children = w.children := by
  rcases masterConfigEnt_cases hfds h with ⟨-, -, hst⟩ | ⟨s, -, -, -, hw⟩
  · have hchildren : w'.children = w.children := by
      rw [children, children, (congrArg World.masterChildTable hst.eq :)]
    have hnext : w'.nextProc = w.nextProc := (congrArg World.nextProc hst.eq :)
    refine ⟨(Roster.of_eq hchildren (congrArg World.proc hst.eq :) hnext).enrolls hnext, ?_,
      hchildren⟩
    rw [hst.nextServ]
    exact Nat.le_succ _
  · have hup := masterConfigUpdate_ok hw
    have hchildren : w'.children = w.children := by
      rw [children, children, (congrArg World.masterChildTable hup.eq :)]
    have hnext : w'.nextProc = w.nextProc := (congrArg World.nextProc hup.eq :)
    exact ⟨(Roster.of_eq hchildren (congrArg World.proc hup.eq :) hnext).enrolls hnext,
      hup.nextServ.ge, hchildren⟩

theorem Inv.step {f f' : Farm} {op : FarmOp} (h : f.Inv) (hst : farmSystem.step f op f') :
    f'.Inv := by
  cases hst with
  | @call op family hread hst hpid hdead =>
    obtain ⟨⟨hallow, hker⟩, hexec, -⟩ := id hst
    have hw := ok_of_map_some hexec
    have hm := (h.managed.step hst).1
    have he := masterExec_enrolls h.managed.account (fun s hs => (h.managed.head s hs).1) hallow
      hker hread hw
    exact h.enrolled hm he (masterExec_nextServ hallow hw) hpid fun p c hc ha =>
      h.stays hst hm he hdead hc ha
  | @entry ent fds family hst =>
    obtain ⟨hfds, hexec, -⟩ := id hst
    obtain ⟨he, hnext, hchildren⟩ := masterConfigEnt_enrolls hfds (ok_of_map_some hexec)
    have hinv := h.enrolled (h.managed.step hst).1 he hnext nofun fun p c hc ha =>
      hchildren ▸ h.alive p c hc ha
    cases f.world.entryOf ent with
    | none => exact hinv
    | some s => exact hinv.reopened (some s)
  | @read s p stat queue family hqueue hevent hst =>
    obtain ⟨⟨hallow, hker⟩, hexec, -⟩ := id hst
    have hw := ok_of_map_some hexec
    obtain ⟨c, -, -, -, -, hstatus⟩ := h.queued s (p, stat) (by rw [hqueue]; simp)
    exact h.read (h.managed.step hst).1 hqueue (masterExec_keeps hw nofun).nextServ.symm
      (masterStatusEvent_reported h.managed.account hevent hstatus hw)
  | run hc ha => exact h.run hc ha
  | exit hc ha => exact h.exit hc

theorem inv_of_reach {f : Farm} (h : farmSystem.Reach f) : f.Inv :=
  h.invariant (by rintro _ rfl; exact inv_init) fun _ _ _ h hst => h.step hst

end Farm

/-! ## Steps that can be run -/

/-- The call is a status event. -/
def MasterOp.isStatusEvent : MasterOp → Bool
  | .statusEvent _ _ => true
  | _ => false

/-- A step other than a start or an entry, if it is one and the master does not panic. -/
def farmCall (f : Farm) : FarmOp → Option Farm
  | .call op =>
    if op.isStatusEvent = false ∧ (∀ x ∈ op.forks f.world, f.PidFree x.2) ∧
        ∀ d ∈ op.reaped, f.Exited d.pid then
      (familyCall f.family op).map fun family =>
        { f with family := family, child := f.born (op.forks f.world) }
    else none
  | .entry _ _ => none
  | .read s =>
    match (f.channel s).queue with
    | [] => none
    | (_, stat) :: _ =>
      if (f.world.serv s).statusFd.1 ≠ 0 then
        (familyCall f.family (.statusEvent s (.stat stat))).map fun family =>
          { f with
            family := family
            channel := Function.update f.channel s (f.channel s).receive }
      else none
  | .run p => (f.child p).bind fun c => if c.alive then some (f.runChild p c) else none
  | .exit p => (f.child p).bind fun c => if c.alive then some (f.exitChild p c) else none

theorem reloadStep_of_familyCall {m m' : Family} {op : MasterOp} (h : familyCall m op = some m') :
    reloadSystem.step m (.call op) m' := by
  obtain ⟨hallow, hker, hexec, hkids⟩ := step_of_familyCall h
  exact ⟨⟨hallow, hker⟩, bind_ok_iff.2 ⟨_, hexec, rfl⟩, hkids⟩

theorem step_of_farmCall {f f' : Farm} {op : FarmOp} (h : farmCall f op = some f') :
    farmSystem.step f op f' := by
  cases op with
  | entry ent fds => cases h
  | call op =>
    simp only [farmCall] at h
    split at h
    · rename_i hok
      obtain ⟨hread, hpid, hdead⟩ := hok
      obtain ⟨family, hfam, rfl⟩ := Option.map_eq_some_iff.1 h
      refine .call (fun s read he => ?_) (reloadStep_of_familyCall hfam)
        (fun s pid he => hpid (s, pid) he) hdead
      rw [he] at hread
      cases hread
    · cases h
  | read s =>
    simp only [farmCall] at h
    split at h
    · cases h
    · rename_i p stat queue hqueue
      split at h
      · rename_i hevent
        obtain ⟨family, hfam, rfl⟩ := Option.map_eq_some_iff.1 h
        exact .read hqueue hevent (reloadStep_of_familyCall hfam)
      · cases h
  | run p =>
    obtain ⟨c, hc, h⟩ := Option.bind_eq_some_iff.1 h
    split at h
    · obtain rfl := Option.some.inj h
      exact .run hc ‹_›
    · cases h
  | exit p =>
    obtain ⟨c, hc, h⟩ := Option.bind_eq_some_iff.1 h
    split at h
    · obtain rfl := Option.some.inj h
      exact .exit hc ‹_›
    · cases h

/-- The master and its children after the start of `smtp` and what comes after it. -/
def smtpFarm (limit : ℕ) (ops : List FarmOp) : Option Farm :=
  (masterExec masterInit (.start (smtpEnt limit) smtpFds)).toOption.bind fun v =>
    ops.foldlM farmCall { farmInit with family := ⟨v, ∅⟩ }

theorem run_of_smtpFarm {limit : ℕ} {ops : List FarmOp} {f : Farm}
    (h : smtpFarm limit ops = some f) : ∃ tr, farmSystem.Run tr f ∧
      tr.map (fun x => x.2.1) = .call (.start (smtpEnt limit) smtpFds) :: ops := by
  obtain ⟨v, hv, h⟩ := Option.bind_eq_some_iff.1 h
  obtain ⟨tr, hp, hmap⟩ := LTS.Path.of_foldlM (S := farmSystem)
    (fun _ _ _ => step_of_farmCall) h
  have hst : reloadSystem.step farmInit.family (.call (.start (smtpEnt limit) smtpFds)) ⟨v, ∅⟩ :=
    step_of_quiet smtpFds_unused rfl rfl (toOption_eq_some hv)
  have hcall : farmSystem.step farmInit (.call (.start (smtpEnt limit) smtpFds))
      { farmInit with family := ⟨v, ∅⟩ } :=
    .call (by simp) hst (by simp [MasterOp.forks]) (by simp [MasterOp.reaped])
  exact ⟨_, ⟨_, rfl, hp.cons hcall⟩, by simp [hmap]⟩

end Nowra
