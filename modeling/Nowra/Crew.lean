import Nowra.Availability
import Nowra.ServerCode
import Nowra.Simulation

/-!
# The master with its children's code

The master and the processes it has forked, each of which runs its code one system call at a time,
in any order and with any answers of the kernel. A message of a process goes into the pipe of its
service, if that is still the pipe that the process was forked with.

A run of it is a run of the master and its children as `farmSystem` has them, in which a child goes
from one phase to the next (`crew_simulation`). So what is known of those runs holds of these : the
calls of the master are the same, and where the pipe is drained `avail_proc` counts the processes
that wait (`crew_agrees`). The invariant of a process is one of all runs, and says which descriptors
it has (`crew_descriptors`).
-/

namespace Nowra

open World

/-! ## The system -/

/-- The master and its processes. A process is named by the address of its record. -/
structure Crew where
  family : Family
  proc : ProcPtr → Option ServerProc
  /-- Which of the pipes that a service has had is its pipe now. -/
  pipe : ServPtr → ℕ
  channel : ServPtr → Channel ProcPtr MasterStatus

namespace Crew

/-- The processes seen as children. -/
def farm (c : Crew) : Farm :=
  ⟨c.family, fun p => (c.proc p).map ServerProc.child, c.pipe, c.channel⟩

/-- The process that `master_spawn` forks, with the descriptors of the master. -/
def newProc (c : Crew) (s : ServPtr) (pid : MasterPid) (inherited : FileTable) : ServerProc where
  pid := pid
  serv := s
  pipe := c.pipe s
  alive := true
  code := masterSpawnCode (c.family.world.serv s).statusFd (c.family.world.serv s).listenFd
  files := inherited
  statusFd := (c.family.world.serv s).statusFd
  listenFd := (c.family.world.serv s).listenFd
  inherited := inherited

/-- The processes after a step of the master that has forked one. -/
def born (c : Crew) (inherited : FileTable) :
    Option (ServPtr × MasterPid) → ProcPtr → Option ServerProc
  | none => c.proc
  | some (s, pid) =>
    Function.update c.proc c.family.world.nextProc (some (c.newProc s pid inherited))

/-- A process has made a call. -/
def called (c : Crew) (p : ProcPtr) (q : ServerProc) (sent : Option (BitVec 32)) : Crew :=
  { c with
    proc := Function.update c.proc p (some q)
    channel := match sent with
      | none => c.channel
      | some status => Function.update c.channel q.serv (c.farm.masterNotify p q.child status) }

end Crew

/-- The process that a step of the master forks. -/
def FarmOp.forked (w : World) : FarmOp → Option (ServPtr × MasterPid)
  | .call op => op.forks w
  | _ => none

/-- What happens to the master and its processes. -/
inductive CrewOp
  /-- A step of the master. A process that is forked has these descriptors. -/
  | master (op : FarmOp) (inherited : FileTable)
  /-- A process makes its next call, and the kernel answers it. -/
  | call (p : ProcPtr) (a : ServerAnswer)
  /-- A process is killed. -/
  | kill (p : ProcPtr)

/-- One step. -/
inductive CrewStep : Crew → CrewOp → Crew → Prop
  | master {c : Crew} {op : FarmOp} {inherited : FileTable} {f : Farm}
      (hrun : ∀ p, op ≠ .run p) (hexit : ∀ p, op ≠ .exit p) (hst : FarmStep c.farm op f)
      (hfork : ∀ s pid, op.forked c.farm.world = some (s, pid) →
        (c.newProc s pid inherited).Forked) :
      CrewStep c (.master op inherited)
        ⟨f.family, c.born inherited (op.forked c.farm.world), f.pipe, f.channel⟩
  | call {c : Crew} {p : ProcPtr} {a : ServerAnswer} {q q' : ServerProc}
      {sent : Option (BitVec 32)} (hq : c.proc p = some q) (ha : q.alive = true)
      (hcall : q.call a = some (q', sent)) : CrewStep c (.call p a) (c.called p q' sent)
  | kill {c : Crew} {p : ProcPtr} {q : ServerProc} (hq : c.proc p = some q)
      (ha : q.alive = true) : CrewStep c (.kill p) (c.called p { q with alive := false } none)

/-- The master without processes. -/
def crewInit : Crew := ⟨⟨masterInit, ∅⟩, fun _ => none, fun _ => 0, fun _ => .empty⟩

def crewSystem : LTS Crew CrewOp where
  init c := c = crewInit
  step := CrewStep

/-! ## The processes keep their places -/

namespace Crew

/-- Every process is at some place. -/
def Ok (c : Crew) : Prop := ∀ p q, c.proc p = some q → q.Ok

theorem Ok.update {c : Crew} (h : c.Ok) {p : ProcPtr} {q : ServerProc} (hq : q.Ok) :
    ∀ p' q', Function.update c.proc p (some q) p' = some q' → q'.Ok := by
  intro p' q' hp'
  rcases eq_or_ne p' p with rfl | hne
  · rw [Function.update_self] at hp'
    exact Option.some.inj hp' ▸ hq
  · rw [Function.update_of_ne hne] at hp'
    exact h p' q' hp'

/-- A process that is forked starts at the first place. -/
theorem Ok.born {c : Crew} (h : c.Ok) {inherited : FileTable}
    {forked : Option (ServPtr × MasterPid)}
    (hfork : ∀ s pid, forked = some (s, pid) → (c.newProc s pid inherited).Forked) :
    ∀ p q, c.born inherited forked p = some q → q.Ok := by
  cases forked with
  | none => exact h
  | some x => exact h.update (ServerProc.ok_of_fork (hfork x.1 x.2 rfl) rfl rfl)

theorem Ok.step {c c' : Crew} {op : CrewOp} (h : c.Ok) (hst : crewSystem.step c op c') :
    c'.Ok := by
  cases hst with
  | master hrun hexit hst hfork => exact h.born hfork
  | call hq ha hcall => exact h.update ((h _ _ hq).call hcall).1
  | kill hq ha =>
    exact h.update ⟨(h _ _ hq).forked.keeps rfl rfl rfl, (h _ _ hq).placed.dead false⟩

theorem ok_init : crewInit.Ok := by
  intro p q hq
  cases hq

theorem ok_of_reach {c : Crew} (h : crewSystem.Reach c) : c.Ok :=
  h.invariant (by rintro _ rfl; exact ok_init) fun _ _ _ h hst => h.step hst

/-! ## The simulation -/

/-- The child of a process that has made a call is replaced, and its message is sent. -/
theorem farm_called {c : Crew} {p : ProcPtr} {q' : ServerProc} {sent : Option (BitVec 32)} :
    (c.called p q' sent).farm = { c.farm with
      child := Function.update c.farm.child p (some q'.child)
      channel := match sent with
        | none => c.farm.channel
        | some status => Function.update c.farm.channel q'.child.serv
            (c.farm.masterNotify p q'.child status) } := by
  have hchild : (fun x => (Function.update c.proc p (some q') x).map ServerProc.child) =
      Function.update c.farm.child p (some q'.child) :=
    Function.comp_update (Option.map ServerProc.child) c.proc p (some q')
  unfold called
  rw [farm, hchild]
  rfl

end Crew

/-- What shows of a child : that it exits, or goes to its next phase. -/
def childShown (p : ProcPtr) : Option Child → Option Child → List FarmOp
  | some c, some c' =>
    if c.alive ≠ c'.alive then [.exit p] else if c.phase ≠ c'.phase then [.run p] else []
  | _, _ => []

/-- What shows of a step. -/
def crewShown : Crew × CrewOp × Crew → List FarmOp
  | (_, .master op _, _) => [op]
  | (c, .call p _, c') => childShown p (c.farm.child p) (c'.farm.child p)
  | (c, .kill p, c') => childShown p (c.farm.child p) (c'.farm.child p)

/-- What shows of a step of the children. -/
def farmShown (m : Farm × FarmOp × Farm) : List FarmOp := [m.2.1]

theorem ServerPhase.next_ne (φ : ServerPhase) : φ ≠ φ.next.1 := by
  cases φ <;> decide

namespace Crew

/-- What a call of a process is to the children. -/
theorem matches_of_does {c : Crew} {p : ProcPtr} {q q' : ServerProc} {sent : Option (BitVec 32)}
    (hq : c.proc p = some q) (ha : q.alive = true) (hdoes : q.child.Does q'.child sent) :
    childShown p (c.farm.child p) ((c.called p q' sent).farm.child p) = [] ∧
        (c.called p q' sent).farm = c.farm ∨
      ∃ op, FarmStep c.farm op (c.called p q' sent).farm ∧
        childShown p (c.farm.child p) ((c.called p q' sent).farm.child p) = [op] := by
  have hc : c.farm.child p = some q.child := by
    change (c.proc p).map _ = _
    rw [hq, Option.map_some]
  have ha' : q.child.alive = true := ha
  rw [farm_called, hc]
  simp only [Function.update_self]
  generalize q'.child = d at *
  cases hdoes with
  | exits =>
    refine .inr ⟨.exit p, .exit hc ha', ?_⟩
    rw [childShown, if_pos (by simp [ha'])]
  | stays =>
    refine .inl ⟨?_, ?_⟩
    · rw [childShown, if_neg (by simp), if_neg (by simp)]
    · rw [← hc, Function.update_eq_self]
  | goes =>
    refine .inr ⟨.run p, ?_, ?_⟩
    · have hrun : FarmStep c.farm (.run p) (c.farm.runChild p q.child) := .run hc ha'
      convert hrun using 1
      unfold Farm.runChild
      cases q.child.phase.next.2 <;> rfl
    · rw [childShown, if_neg (by simp), if_pos (ServerPhase.next_ne _)]

/-- A step of the master is the same one for the children. -/
theorem farm_master {c : Crew} {op : FarmOp} {inherited : FileTable} {f : Farm}
    (hrun : ∀ p, op ≠ .run p) (hexit : ∀ p, op ≠ .exit p) (hst : FarmStep c.farm op f) :
    farm ⟨f.family, c.born inherited (op.forked c.farm.world), f.pipe, f.channel⟩ = f := by
  have hborn : (fun p => (c.born inherited (op.forked c.farm.world) p).map ServerProc.child) =
      c.farm.born (op.forked c.farm.world) := by
    cases op.forked c.farm.world with
    | none => rfl
    | some x =>
      obtain ⟨s, pid⟩ := x
      exact Function.comp_update (Option.map ServerProc.child) c.proc _ (some _)
  rw [farm, hborn]
  cases hst with
  | call hread hst hpid hdead => rfl
  | @entry ent fds family hst =>
    cases hentry : c.farm.world.entryOf ent <;> rfl
  | read hqueue hevent hst => rfl
  | run hc ha => exact (hrun _ rfl).elim
  | exit hc ha => exact (hexit _ rfl).elim

end Crew

/-- The processes are children. -/
theorem crew_simulation : LTS.Simulation crewSystem farmSystem (fun c f => f = c.farm ∧ c.Ok)
    crewShown farmShown where
  init := by
    rintro _ rfl
    exact ⟨[], farmInit, ⟨farmInit, rfl, .nil⟩, rfl, rfl, Crew.ok_init⟩
  step := by
    rintro c op c' _ ⟨rfl, hok⟩ hst
    have hok' := hok.step hst
    have hcalled : ∀ {p : ProcPtr} {q q' : ServerProc} {sent : Option (BitVec 32)},
        c.proc p = some q → q.alive = true → q.child.Does q'.child sent →
        c' = c.called p q' sent →
        LTS.Matches farmSystem (fun c f => f = c.farm ∧ c.Ok) farmShown
          (childShown p (c.farm.child p) (c'.farm.child p)) c' c.farm := by
      rintro p q q' sent hq ha hdoes rfl
      rcases Crew.matches_of_does hq ha hdoes with ⟨hnil, hsame⟩ | ⟨op, hst, hone⟩
      · exact .inl ⟨hnil, hsame.symm, hok'⟩
      · exact .inr ⟨op, _, hst, hone.symm, rfl, hok'⟩
    cases hst with
    | @master op inherited f hrun hexit hst hfork =>
      exact .inr ⟨op, f, hst, rfl, (Crew.farm_master hrun hexit hst).symm, hok'⟩
    | call hq ha hcall => exact hcalled hq ha ((hok _ _ hq).call hcall).2 rfl
    | kill hq ha => exact hcalled hq ha .exits rfl

/-! ## Runs -/

/-- The step is part of a reload. -/
def CrewOp.IsReload : CrewOp → Prop
  | .master op _ => op.IsReload
  | _ => False

theorem observed_farmShown (tr : List (Farm × FarmOp × Farm)) :
    LTS.observed farmShown tr = tr.map fun m => m.2.1 :=
  List.map_eq_flatMap.symm

/-- A child that exits or goes on is no reload. -/
theorem not_reload_of_childShown {p : ProcPtr} {c c' : Option Child} {op : FarmOp}
    (h : op ∈ childShown p c c') : ¬op.IsReload := by
  unfold childShown at h
  split at h
  · split at h
    · obtain rfl := List.mem_singleton.1 h
      exact id
    · split at h
      · obtain rfl := List.mem_singleton.1 h
        exact id
      · cases h
  · cases h

theorem not_reload_of_crewShown {m : Crew × CrewOp × Crew} {op : FarmOp}
    (hm : ¬m.2.1.IsReload) (h : op ∈ crewShown m) : ¬op.IsReload := by
  obtain ⟨c, a, c'⟩ := m
  cases a with
  | master op' inherited =>
    obtain rfl := List.mem_singleton.1 h
    exact hm
  | call p a => exact not_reload_of_childShown h
  | kill p => exact not_reload_of_childShown h

/-- Without a reload every child writes to the pipe that its service has. -/
theorem attached_of_run {f : Farm} {tr : List (Farm × FarmOp × Farm)} (h : farmSystem.Run tr f)
    (hno : ∀ op ∈ tr.map (fun m => m.2.1), ¬op.IsReload) : f.Inv ∧ f.Attached := by
  obtain ⟨f₀, rfl, hp⟩ := h
  refine (hp.invariant_of (P := fun f => f.Inv ∧ f.Attached) (C := fun _ op => ¬op.IsReload)
    ⟨Farm.inv_init, ?_⟩ (fun _ _ _ hf hop hst => ⟨hf.1.step hst, hf.2.step hf.1 hop hst⟩)
    fun m hm => hno _ (List.mem_map_of_mem hm)).1
  intro p c hc
  cases hc

namespace ServerProc

variable {q : ServerProc}

/-- No process is executed with a connection. -/
theorem Forked.executed_ne (h : q.Forked) (fd : ℤ) : q.executed fd ≠ some .connection := by
  unfold executed
  split
  · simp
  split
  · simp
  split
  · simp
  · intro he
    refine h.fresh fd ?_
    obtain ⟨entry, hentry, hobj⟩ := Option.map_eq_some_iff.1 he
    rw [FileTable.object, (Option.filter_eq_some_iff.1 hentry).1, Option.map_some, hobj]

theorem Forked.polled_ne (h : q.Forked) (epfd fd : ℤ) : q.polled epfd fd ≠ some .connection := by
  unfold polled
  rcases eq_or_ne fd epfd with rfl | hne
  · simp
  · rw [Function.update_of_ne hne]
    exact h.executed_ne fd

/-- The calls of the branch of `master_spawn` are none of those of the loop. -/
theorem not_loop_of_spawning {statusFd : ℤ × ℤ} {listenFd : ℤ} {i : ServerInstr}
    {rest : List ServerInstr} (h : i :: rest <:+ masterSpawnCode statusFd listenFd) :
    i ≠ .eventWait ∧ i ≠ .inetAccept ∧ (∀ status, i ≠ .masterNotify status) ∧
      ∀ fd, i ≠ .service fd := by
  have hi := h.subset List.mem_cons_self
  simp only [masterSpawnCode, List.mem_cons, List.not_mem_nil, or_false] at hi
  rcases hi with rfl | rfl | rfl | rfl | rfl | rfl | rfl | rfl <;> simp

/-- A process that waits has the descriptors it was executed with and its event loop. -/
theorem Ok.waiting (h : q.Ok) {rest : List ServerInstr} (hcode : q.code = .eventWait :: rest) :
    ∃ epfd, q.executed epfd = none ∧ q.files.object = q.polled epfd := by
  cases h.placed with
  | spawning hcode' hfiles hfresh =>
    exact ((not_loop_of_spawning (hcode ▸ hcode')).1 rfl).elim
  | starting hcode' hfiles => cases hcode.symm.trans hcode'
  | ready epfd hcode' hepfd hfiles => exact ⟨_, hepfd, hfiles⟩
  | connected epfd fd' n hcode' hepfd hfd hfiles hblock hexec =>
    fin_cases n <;> cases hcode.symm.trans hcode'

/-- So does one that accepts. -/
theorem Ok.accepting (h : q.Ok) {rest : List ServerInstr} (hcode : q.code = .inetAccept :: rest) :
    q.files.object masterListenFd = some .listen := by
  cases h.placed with
  | spawning hcode' hfiles hfresh =>
    exact ((not_loop_of_spawning (hcode ▸ hcode')).2.1 rfl).elim
  | starting hcode' hfiles => cases hcode.symm.trans hcode'
  | ready epfd hcode' hepfd hfiles =>
    rw [hfiles, polled_of_ne hepfd (by simp [executed_listen]), executed_listen]
  | connected epfd fd' n hcode' hepfd hfd hfiles hblock hexec =>
    fin_cases n <;> cases hcode.symm.trans hcode'

/-- A message goes into the pipe that the process was forked with. -/
theorem Ok.notifying (h : q.Ok) {status : BitVec 32} {rest : List ServerInstr}
    (hcode : q.code = .masterNotify status :: rest) :
    q.files.object masterStatusFd = some .statusWrite := by
  cases h.placed with
  | spawning hcode' hfiles hfresh =>
    exact ((not_loop_of_spawning (hcode ▸ hcode')).2.2.1 _ rfl).elim
  | starting hcode' hfiles => cases hcode.symm.trans hcode'
  | ready epfd hcode' hepfd hfiles =>
    rw [hfiles, polled_of_ne hepfd (by simp [executed_status]), executed_status]
  | connected epfd fd' n hcode' hepfd hfd hfiles hblock hexec =>
    exact connected_status hepfd hfd hfiles

/-- The service gets the connection, blocking and close-on-exec. -/
theorem Ok.serving (h : q.Ok) {fd : ℤ} {rest : List ServerInstr}
    (hcode : q.code = .service fd :: rest) : q.files fd = some ⟨.connection, true, false⟩ := by
  cases h.placed with
  | spawning hcode' hfiles hfresh =>
    exact ((not_loop_of_spawning (hcode ▸ hcode')).2.2.2 _ rfl).elim
  | starting hcode' hfiles => cases hcode.symm.trans hcode'
  | ready epfd hcode' hepfd hfiles =>
    rw [hcode] at hcode'
    simp [readyCodes, singleServerMainCode, singleServerAcceptInetCode] at hcode'
  | connected epfd fd' n hcode' hepfd hfd hfiles hblock hexec =>
    fin_cases n <;> cases hcode.symm.trans hcode'
    have hobj := congrFun hfiles fd
    rw [Function.update_self] at hobj
    obtain ⟨⟨object, closeOnExec, nonBlocking⟩, hentry, hobject⟩ := Option.map_eq_some_iff.1 hobj
    have hblock := hblock (by decide)
    have hexec := hexec (by decide)
    rw [hentry, Option.map_some] at hblock hexec
    obtain rfl : object = .connection := hobject
    obtain rfl := Option.some.inj hblock
    obtain rfl := Option.some.inj hexec
    exact hentry

/-- There is one connection at most, and none while the process is idle. -/
theorem Ok.connections (h : q.Ok) :
    (serverPhase q.code = .idle → ∀ fd, q.files.object fd ≠ some .connection) ∧
    ∀ fd fd', q.files.object fd = some .connection → q.files.object fd' = some .connection →
      fd = fd' := by
  have hnone : (∀ fd, q.files.object fd ≠ some .connection) →
      (serverPhase q.code = .idle → ∀ fd, q.files.object fd ≠ some .connection) ∧
      ∀ fd fd', q.files.object fd = some .connection → q.files.object fd' = some .connection →
        fd = fd' := fun hno => ⟨fun _ => hno, fun fd _ hfd => (hno fd hfd).elim⟩
  cases h.placed with
  | spawning hcode hfiles hfresh => exact hnone hfresh
  | starting hcode hfiles =>
    exact hnone fun fd => hfiles ▸ h.forked.executed_ne fd
  | ready epfd hcode hepfd hfiles => exact hnone fun fd => hfiles ▸ h.forked.polled_ne _ fd
  | connected epfd fd n hcode hepfd hfd hfiles hblock hexec =>
    have honly : ∀ x, q.files.object x = some .connection → x = fd := by
      intro x hx
      by_contra hne
      rw [hfiles, Function.update_of_ne hne] at hx
      exact h.forked.polled_ne _ _ hx
    refine ⟨fun hidle => ?_, fun x x' hx hx' => (honly x hx).trans (honly x' hx').symm⟩
    rw [hcode] at hidle
    fin_cases n <;> cases hidle

end ServerProc

/-- In every run a process has one connection at most, and none while it is idle. The service gets
the connection blocking and close-on-exec, a message goes into the pipe the process was forked
with, and a process that waits has nothing open but what it was executed with and its event
loop. -/
theorem crew_descriptors {c : Crew} (h : crewSystem.Reach c) {p : ProcPtr} {q : ServerProc}
    (hq : c.proc p = some q) :
    (∀ fd fd', q.files.object fd = some .connection → q.files.object fd' = some .connection →
      fd = fd') ∧
    (serverPhase q.code = .idle → ∀ fd, q.files.object fd ≠ some .connection) ∧
    (∀ fd rest, q.code = .service fd :: rest → q.files fd = some ⟨.connection, true, false⟩) ∧
    (∀ status rest, q.code = .masterNotify status :: rest →
      q.files.object masterStatusFd = some .statusWrite) ∧
    (∀ rest, q.code = .inetAccept :: rest → q.files.object masterListenFd = some .listen) ∧
    ∀ rest, q.code = .eventWait :: rest →
      ∃ epfd, q.executed epfd = none ∧ q.files.object = q.polled epfd := by
  have hok := Crew.ok_of_reach h p q hq
  exact ⟨hok.connections.2, hok.connections.1, fun _ _ => hok.serving, fun _ _ => hok.notifying,
    fun _ => hok.accepting, fun _ => hok.waiting⟩

/-! ## A run -/

/-- What is open in the master when `smtp` has been started. -/
def smtpFiles : FileTable := fun fd =>
  if fd = smtpFds.listenFd then some ⟨.listen, true, true⟩
  else if fd = smtpFds.status.1 then some ⟨.statusRead, true, true⟩
  else if fd = smtpFds.status.2 then some ⟨.statusWrite, true, true⟩
  else if 0 ≤ fd ∧ fd ≤ 5 then some ⟨.other fd.toNat, false, false⟩
  else none

theorem smtpFiles_forked {c : Crew} {s : ServPtr} {pid : MasterPid}
    (hstatus : (c.family.world.serv s).statusFd = smtpFds.status)
    (hlisten : (c.family.world.serv s).listenFd = smtpFds.listenFd) :
    (c.newProc s pid smtpFiles).Forked := by
  have hstatus' : (c.newProc s pid smtpFiles).statusFd = smtpFds.status := hstatus
  have hlisten' : (c.newProc s pid smtpFiles).listenFd = smtpFds.listenFd := hlisten
  constructor
  · rw [hstatus']
    rfl
  · rw [hlisten']
    rfl
  · rw [hstatus']
    decide
  · rw [hstatus', hlisten']
    decide
  · rw [hstatus', hlisten']
    decide
  · intro fd
    change (smtpFiles fd).map _ ≠ _
    unfold smtpFiles
    repeat' split
    all_goals simp

/-- A step that forks no process, if it is one. -/
def crewCall (c : Crew) : CrewOp → Option Crew
  | .master (.run _) _ => none
  | .master (.exit _) _ => none
  | .master op _ =>
    if op.forked c.farm.world = none then
      (farmCall c.farm op).map fun f => ⟨f.family, c.proc, f.pipe, f.channel⟩
    else none
  | .call p a => (c.proc p).bind fun q =>
    if q.alive then (q.call a).map fun r => c.called p r.1 r.2 else none
  | .kill p => (c.proc p).bind fun q =>
    if q.alive then some (c.called p { q with alive := false } none) else none

theorem step_of_crewCall {c c' : Crew} {op : CrewOp} (h : crewCall c op = some c') :
    crewSystem.step c op c' := by
  have hmaster : ∀ {op : FarmOp} {inherited : FileTable}, (∀ p, op ≠ .run p) →
      (∀ p, op ≠ .exit p) →
      (if op.forked c.farm.world = none then
        (farmCall c.farm op).map fun f => (⟨f.family, c.proc, f.pipe, f.channel⟩ : Crew)
      else none) = some c' → crewSystem.step c (.master op inherited) c' := by
    intro op inherited hrun hexit h
    split at h
    · rename_i hforked
      obtain ⟨f, hf, rfl⟩ := Option.map_eq_some_iff.1 h
      have hst : CrewStep c (.master op inherited)
          ⟨f.family, c.born inherited (op.forked c.farm.world), f.pipe, f.channel⟩ :=
        .master hrun hexit (step_of_farmCall hf) (by simp [hforked])
      rw [hforked] at hst
      exact hst
    · cases h
  cases op with
  | master op inherited =>
    cases op with
    | run p => cases h
    | exit p => cases h
    | call op => exact hmaster (by simp) (by simp) h
    | entry ent fds => exact hmaster (by simp) (by simp) h
    | read s => exact hmaster (by simp) (by simp) h
  | call p a =>
    obtain ⟨q, hq, h⟩ := Option.bind_eq_some_iff.1 h
    split at h
    · obtain ⟨⟨q', sent⟩, hcall, rfl⟩ := Option.map_eq_some_iff.1 h
      exact .call hq ‹_› hcall
    · cases h
  | kill p =>
    obtain ⟨q, hq, h⟩ := Option.bind_eq_some_iff.1 h
    split at h
    · obtain rfl := Option.some.inj h
      exact .kill hq ‹_›
    · cases h

/-- The master has started `smtp` and forked a process for it, and what comes after it. -/
def smtpCrew (ops : List CrewOp) : Option Crew :=
  (masterExec masterInit (.start (smtpEnt 1) smtpFds)).toOption.bind fun v =>
    let c : Crew := { crewInit with family := ⟨v, ∅⟩ }
    (farmCall c.farm (.call (.availEvent 0 (some 100) 1000))).bind fun f =>
      if (v.serv 0).statusFd = smtpFds.status ∧ (v.serv 0).listenFd = smtpFds.listenFd then
        ops.foldlM crewCall
          ⟨f.family, c.born smtpFiles ((MasterOp.availEvent 0 (some 100) 1000).forks v), f.pipe,
            f.channel⟩
      else none

theorem run_of_smtpCrew {ops : List CrewOp} {c : Crew} (h : smtpCrew ops = some c) :
    ∃ tr, crewSystem.Run tr c ∧ tr.map (fun m => m.2.1) =
      .master (.call (.start (smtpEnt 1) smtpFds)) smtpFiles ::
        .master (.call (.availEvent 0 (some 100) 1000)) smtpFiles :: ops := by
  obtain ⟨v, hv, h⟩ := Option.bind_eq_some_iff.1 h
  obtain ⟨f, hf, h⟩ := Option.bind_eq_some_iff.1 h
  split at h
  · rename_i hfds
    obtain ⟨tr, hp, hmap⟩ := LTS.Path.of_foldlM (S := crewSystem)
      (fun _ _ _ => step_of_crewCall) h
    have hst : reloadSystem.step farmInit.family (.call (.start (smtpEnt 1) smtpFds)) ⟨v, ∅⟩ :=
      step_of_quiet smtpFds_unused rfl rfl (toOption_eq_some hv)
    have hstart : FarmStep crewInit.farm (.call (.start (smtpEnt 1) smtpFds))
        { crewInit.farm with family := ⟨v, ∅⟩ } :=
      .call (by simp) hst (by simp [MasterOp.forks]) (by simp [MasterOp.reaped])
    have hstart' : crewSystem.step crewInit (.master (.call (.start (smtpEnt 1) smtpFds)) smtpFiles)
        { crewInit with family := ⟨v, ∅⟩ } :=
      .master (by simp) (by simp) hstart (by simp [FarmOp.forked, MasterOp.forks])
    have hfork : crewSystem.step { crewInit with family := ⟨v, ∅⟩ }
        (.master (.call (.availEvent 0 (some 100) 1000)) smtpFiles) _ :=
      .master (by simp) (by simp) (step_of_farmCall hf) fun s pid hforks => by
        obtain ⟨x, -, hx⟩ := Option.map_eq_some_iff.1 hforks
        obtain ⟨rfl, -⟩ := Prod.mk.inj hx
        exact smtpFiles_forked hfds.1 hfds.2
    exact ⟨_, ⟨_, rfl, (hp.cons hfork).cons hstart'⟩, by simp [hmap]⟩
  · cases h

/-- The process is executed, waits, accepts a connection and notifies the master, which reads the
message. -/
def smtpServes : List CrewOp :=
  [.call 0 .done, .call 0 .done, .call 0 .done, .call 0 .done, .call 0 .done, .call 0 .done,
    .call 0 .done, .call 0 .done, .call 0 (.opened 7 true), .call 0 .done, .call 0 .done,
    .call 0 (.failed eintr), .call 0 .done, .call 0 .done, .call 0 (.opened 8 false),
    .call 0 .done, .call 0 .done, .call 0 .done, .master (.read 0) smtpFiles]

/-- It serves the connection, which is blocking and close-on-exec, and has no other. -/
theorem crew_descriptors_smtp : ∃ c q, crewSystem.Reach c ∧ c.proc 0 = some q ∧
    q.files 8 = some ⟨.connection, true, false⟩ ∧
    ∀ fd, q.files.object fd = some .connection → fd = 8 := by
  have hrun : (smtpCrew smtpServes).any (fun c =>
      (c.proc 0).any fun q => q.code.head? = some (.service 8)) = true := by
    decide +kernel
  obtain ⟨c, hc, hobs⟩ := (Option.any_eq_true _ _).1 hrun
  obtain ⟨q, hq, hcode⟩ := (Option.any_eq_true _ _).1 hobs
  obtain ⟨rest, hrest⟩ := List.head?_eq_some_iff.1 (of_decide_eq_true hcode)
  obtain ⟨tr, htr, -⟩ := run_of_smtpCrew hc
  obtain ⟨hone, -, hservice, -⟩ := crew_descriptors ⟨tr, htr⟩ hq
  have hfile := hservice 8 rest hrest
  refine ⟨c, q, ⟨tr, htr⟩, hq, hfile, fun fd hfd => hone fd 8 hfd ?_⟩
  rw [FileTable.object, hfile]
  rfl

end Nowra
