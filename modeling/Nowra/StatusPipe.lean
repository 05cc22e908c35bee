import Nowra.Crew
import Nowra.Framing

/-!
# The bytes in the status pipes

`master_notify` writes a `MASTER_STATUS` to the status pipe, and `master_status_event` reads one.
What is in a pipe is bytes (`PipedCrew`), and where a message begins is known from the number of
bytes only.

If nobody else writes to the pipes, every read gets a whole message, and it is one that a process
of the service has written : the system is simulated by the one with messages in the pipes
(`piped_simulation`), and so by the one with the four phases of a child (`piped_agrees`).

A process keeps `MASTER_STATUS_FD` open when it executes a program, so there may be other bytes.
Then the reads are off by as much until one of them gets too few bytes or the pipe is replaced.
After that they get the messages again, and a pipe does not get empty without (`status_resync`).
-/

namespace Nowra

open World

/-! ## Messages as bytes -/

/-- The int that is stored in four bytes. -/
def intOfBytes (bytes : Bytes) : BitVec 32 :=
  BitVec.ofNat 32 (bytes.foldr (fun b n => b.toNat + 256 * n) 0)

theorem intOfBytes_pidKey (n : BitVec 32) : intOfBytes (pidKey n) = n := by
  refine BitVec.eq_of_toNat_eq ?_
  simp only [intOfBytes, pidKey, List.foldr_cons, List.foldr_nil, BitVec.extractLsb'_toNat,
    Nat.shiftRight_eq_div_pow, BitVec.toNat_ofNat]
  have hlt := n.isLt
  omega

/-- The bytes of a message, and the message in eight bytes. -/
def MasterStatus.bytes (stat : MasterStatus) : Bytes := pidKey stat.pid ++ pidKey stat.avail

def MasterStatus.ofBytes (bytes : Bytes) : MasterStatus :=
  ⟨intOfBytes (bytes.take 4), intOfBytes (bytes.drop 4)⟩

theorem MasterStatus.length_bytes (stat : MasterStatus) : stat.bytes.length = 8 := rfl

theorem MasterStatus.ofBytes_bytes (stat : MasterStatus) : ofBytes stat.bytes = stat := by
  have hpid : stat.bytes.take 4 = pidKey stat.pid := rfl
  have havail : stat.bytes.drop 4 = pidKey stat.avail := rfl
  rw [ofBytes, hpid, havail, intOfBytes_pidKey, intOfBytes_pidKey]

/-- `MASTER_STATUS` -/
def masterStatusCode : FrameCode MasterStatus (BitVec 8) where
  size := 8
  encode := MasterStatus.bytes
  decode := MasterStatus.ofBytes
  size_pos := Nat.succ_pos 7
  length_encode := MasterStatus.length_bytes
  decode_encode := MasterStatus.ofBytes_bytes

/-- What `read` returns for the bytes in a pipe. -/
def masterStatusRead (bytes : Bytes) : StatusRead :=
  match (masterStatusCode.read bytes).1 with
  | .whole stat => .stat stat
  | .short n => .short n

/-! ## The system -/

/-- The master and its processes, with the bytes in the pipes. -/
structure PipedCrew where
  family : Family
  proc : ProcPtr → Option ServerProc
  /-- Which of the pipes that a service has had is its pipe now. -/
  pipe : ServPtr → ℕ
  bytes : ServPtr → Bytes

namespace PipedCrew

/-- The master and its processes, with messages in the pipes. -/
def crew (b : PipedCrew) (channel : ServPtr → Channel ProcPtr MasterStatus) : Crew :=
  ⟨b.family, b.proc, b.pipe, channel⟩

/-- With nothing in them. -/
def quiet (b : PipedCrew) : Crew := b.crew fun _ => .empty

/-- A process has made a call. A write of so few bytes is not split, and waits while the pipe is
full. -/
def called (b : PipedCrew) (p : ProcPtr) (q : ServerProc) (sent : Option (BitVec 32)) :
    PipedCrew :=
  { b with
    proc := Function.update b.proc p (some q)
    bytes := match sent with
      | none => b.bytes
      | some status =>
        if q.pipe = b.pipe q.serv then
          Function.update b.bytes q.serv (b.bytes q.serv ++ masterStatusCode.encode ⟨q.pid, status⟩)
        else b.bytes }

/-- The status pipe of a service is replaced. -/
def reopened (b : PipedCrew) : Option ServPtr → PipedCrew
  | none => b
  | some s => { b with
      pipe := Function.update b.pipe s (b.pipe s + 1)
      bytes := Function.update b.bytes s [] }

/-- No message of a former owner of the pid is unread. -/
def PidFree (b : PipedCrew) (pid : MasterPid) : Prop :=
  ∀ s < b.family.world.nextServ, ∀ stats, b.bytes s = masterStatusCode.stream stats →
    ∀ stat ∈ stats, stat.pid ≠ pid

end PipedCrew

/-- One step. -/
inductive PipedStep : PipedCrew → CrewOp → PipedCrew → Prop
  | call {b : PipedCrew} {op : MasterOp} {inherited : FileTable} {family : Family}
      (hread : ∀ s read, op ≠ .statusEvent s read)
      (hst : reloadSystem.step b.family (.call op) family)
      (hpid : ∀ s pid, op.forks b.family.world = some (s, pid) → b.PidFree pid)
      (hdead : ∀ d ∈ op.reaped, b.quiet.farm.Exited d.pid)
      (hfork : ∀ s pid, op.forks b.family.world = some (s, pid) →
        (b.quiet.newProc s pid inherited).Forked) :
      PipedStep b (.master (.call op) inherited)
        { b with family := family, proc := b.quiet.born inherited (op.forks b.family.world) }
  | entry {b : PipedCrew} {ent : MasterEnt} {fds : ServFds} {inherited : FileTable}
      {family : Family} (hst : reloadSystem.step b.family (.entry ent fds) family) :
      PipedStep b (.master (.entry ent fds) inherited)
        { b.reopened (b.family.world.entryOf ent) with family := family }
  | read {b : PipedCrew} {s : ServPtr} {inherited : FileTable} {family : Family}
      (hbytes : b.bytes s ≠ []) (hevent : (b.family.world.serv s).statusFd.1 ≠ 0)
      (hst : reloadSystem.step b.family
        (.call (.statusEvent s (masterStatusRead (b.bytes s)))) family) :
      PipedStep b (.master (.read s) inherited) { b with
        family := family
        bytes := Function.update b.bytes s (masterStatusCode.read (b.bytes s)).2 }
  | process {b : PipedCrew} {p : ProcPtr} {a : ServerAnswer} {q q' : ServerProc}
      {sent : Option (BitVec 32)} (hq : b.proc p = some q) (ha : q.alive = true)
      (hcall : q.call a = some (q', sent)) : PipedStep b (.call p a) (b.called p q' sent)
  | kill {b : PipedCrew} {p : ProcPtr} {q : ServerProc} (hq : b.proc p = some q)
      (ha : q.alive = true) : PipedStep b (.kill p) (b.called p { q with alive := false } none)

/-- The master before it reads the table for the first time. -/
def pipedInit : PipedCrew := ⟨⟨masterInit, ∅⟩, fun _ => none, fun _ => 0, fun _ => []⟩

def pipedSystem : LTS PipedCrew CrewOp where
  init b := b = pipedInit
  step := PipedStep

/-! ## Bytes carry messages -/

/-- The bytes in each pipe are those of the messages that are in it. -/
def PipedCrew.Carries (b : PipedCrew) (c : Crew) : Prop :=
  ∃ channel, c = b.crew channel ∧
    ∀ s, b.bytes s = masterStatusCode.stream ((channel s).queue.map Prod.snd)

/-- What shows of a step. -/
def pipedShown (m : PipedCrew × CrewOp × PipedCrew) : List FarmOp :=
  crewShown (m.1.quiet, m.2.1, m.2.2.quiet)

theorem pipedShown_eq (b b' : PipedCrew) (op : CrewOp)
    (channel channel' : ServPtr → Channel ProcPtr MasterStatus) :
    crewShown (b.crew channel, op, b'.crew channel') = pipedShown (b, op, b') := by
  cases op <;> rfl

/-- A read gets the first message. -/
theorem masterStatusRead_stream {bytes : Bytes} {stat : MasterStatus} {stats : List MasterStatus}
    (h : bytes = masterStatusCode.stream (stat :: stats)) :
    masterStatusRead bytes = .stat stat ∧
      (masterStatusCode.read bytes).2 = masterStatusCode.stream stats := by
  subst h
  rw [masterStatusRead, FrameCode.read_stream_cons]
  exact ⟨rfl, rfl⟩

namespace PipedCrew

variable {b : PipedCrew} {channel : ServPtr → Channel ProcPtr MasterStatus}

/-- A pipe with bytes in it has a message. -/
theorem exists_queue (hcarries : ∀ s, b.bytes s =
      masterStatusCode.stream ((channel s).queue.map Prod.snd)) {s : ServPtr}
    (hbytes : b.bytes s ≠ []) : ∃ p stat queue, (channel s).queue = (p, stat) :: queue ∧
      masterStatusRead (b.bytes s) = .stat stat ∧ (masterStatusCode.read (b.bytes s)).2 =
        masterStatusCode.stream (queue.map Prod.snd) := by
  cases hqueue : (channel s).queue with
  | nil =>
    rw [hcarries s, hqueue] at hbytes
    exact (hbytes rfl).elim
  | cons x queue =>
    have hstream := hcarries s
    rw [hqueue, List.map_cons] at hstream
    obtain ⟨hread, hrest⟩ := masterStatusRead_stream hstream
    exact ⟨x.1, x.2, queue, rfl, hread, hrest⟩

/-- A process that has made a call has written the bytes of its message. -/
theorem carries_called (hcarries : ∀ s, b.bytes s =
      masterStatusCode.stream ((channel s).queue.map Prod.snd)) {p : ProcPtr} {q : ServerProc}
    {sent : Option (BitVec 32)} :
    (b.called p q sent).Carries ((b.crew channel).called p q sent) := by
  cases sent with
  | none => exact ⟨channel, rfl, hcarries⟩
  | some status =>
    refine ⟨_, rfl, fun s => ?_⟩
    have hnotify : (b.crew channel).farm.masterNotify p q.child status =
        if q.pipe = b.pipe q.serv then (channel q.serv).send p ⟨q.pid, status⟩
        else (channel q.serv).lose p ⟨q.pid, status⟩ := rfl
    change (if q.pipe = b.pipe q.serv then _ else b.bytes) s = _
    simp only [hnotify]
    rcases eq_or_ne s q.serv with rfl | hne
    · rw [Function.update_self]
      split
      · rw [Function.update_self, Channel.send_queue, List.map_append,
          FrameCode.stream_append, ← hcarries]
        rfl
      · rw [Channel.lose_queue]
        exact hcarries _
    · rw [Function.update_of_ne hne]
      split
      · rw [Function.update_of_ne hne]
        exact hcarries s
      · exact hcarries s

/-- No message with the pid is in a pipe if none is in its bytes. -/
theorem pidFree_crew (hcarries : ∀ s, b.bytes s =
      masterStatusCode.stream ((channel s).queue.map Prod.snd)) {pid : MasterPid}
    (h : b.PidFree pid) : (b.crew channel).farm.PidFree pid :=
  fun s hs x hx => h s hs _ (hcarries s) x.2 (List.mem_map_of_mem hx)

/-- A step on the bytes is one on the messages. -/
theorem step_crew (hcarries : ∀ s, b.bytes s =
      masterStatusCode.stream ((channel s).queue.map Prod.snd)) {op : CrewOp} {b' : PipedCrew}
    (hst : pipedSystem.step b op b') :
    ∃ channel', crewSystem.step (b.crew channel) op (b'.crew channel') ∧
      ∀ s, b'.bytes s = masterStatusCode.stream ((channel' s).queue.map Prod.snd) := by
  cases hst with
  | @call op inherited family hread hst hpid hdead hfork =>
    have hfarm : FarmStep (b.crew channel).farm (.call op) { (b.crew channel).farm with
        family := family
        child := (b.crew channel).farm.born (op.forks b.family.world) } :=
      .call hread hst (fun s pid hforks => pidFree_crew hcarries (hpid s pid hforks)) hdead
    exact ⟨channel, .master (by simp) (by simp) hfarm hfork, hcarries⟩
  | @entry ent fds inherited family hst =>
    have hfarm : FarmStep (b.crew channel).farm (.entry ent fds)
        { (b.crew channel).farm.reopened (b.family.world.entryOf ent) with family := family } :=
      .entry hst
    have hstep : CrewStep (b.crew channel) (.master (.entry ent fds) inherited)
        ⟨family, b.proc, ((b.crew channel).farm.reopened (b.family.world.entryOf ent)).pipe,
          ((b.crew channel).farm.reopened (b.family.world.entryOf ent)).channel⟩ :=
      .master (by simp) (by simp) hfarm (by simp [FarmOp.forked])
    cases hentry : b.family.world.entryOf ent with
    | none =>
      rw [hentry] at hstep
      exact ⟨channel, hstep, hcarries⟩
    | some s =>
      rw [hentry] at hstep
      refine ⟨Function.update channel s .empty, hstep, fun t => ?_⟩
      simp only [reopened]
      rcases eq_or_ne t s with rfl | hne
      · rw [Function.update_self, Function.update_self]
        rfl
      · rw [Function.update_of_ne hne, Function.update_of_ne hne]
        exact hcarries t
  | @read s inherited family hbytes hevent hst =>
    obtain ⟨p, stat, queue, hqueue, hread, hrest⟩ := exists_queue hcarries hbytes
    rw [hread] at hst
    have hfarm : FarmStep (b.crew channel).farm (.read s) { (b.crew channel).farm with
        family := family
        channel := Function.update channel s (channel s).receive } :=
      .read hqueue hevent hst
    refine ⟨_, .master (by simp) (by simp) hfarm (by simp [FarmOp.forked]), fun t => ?_⟩
    rcases eq_or_ne t s with rfl | hne
    · simp only [Function.update_self]
      rw [hrest, Channel.receive_eq hqueue]
    · simp only [Function.update_of_ne hne]
      exact hcarries t
  | process hq ha hcall =>
    obtain ⟨channel', heq, hcarries'⟩ := carries_called hcarries
    exact ⟨channel', heq ▸ CrewStep.call hq ha hcall, hcarries'⟩
  | kill hq ha =>
    obtain ⟨channel', heq, hcarries'⟩ := carries_called hcarries
    exact ⟨channel', heq ▸ CrewStep.kill hq ha, hcarries'⟩

end PipedCrew

/-- The bytes are messages. -/
theorem piped_simulation : LTS.Simulation pipedSystem crewSystem PipedCrew.Carries pipedShown
    crewShown where
  init := by
    rintro _ rfl
    exact ⟨[], crewInit, ⟨crewInit, rfl, .nil⟩, rfl, fun _ => .empty, rfl, fun _ => rfl⟩
  step := by
    rintro b op b' _ ⟨channel, rfl, hcarries⟩ hst
    obtain ⟨channel', hst', hcarries'⟩ := PipedCrew.step_crew hcarries hst
    exact .inr ⟨op, _, hst', pipedShown_eq .., channel', rfl, hcarries'⟩

/-! ## What is written and read -/

namespace PipedCrew

variable {b b' : PipedCrew} {s : ServPtr} {op : CrewOp}

/-- The message that a process of the service writes to its pipe. -/
def written (b : PipedCrew) (s : ServPtr) : CrewOp → List MasterStatus
  | .call p a =>
    match (b.proc p).bind fun q => q.call a with
    | some (q', some status) =>
      if q'.serv = s ∧ q'.pipe = b.pipe s then [⟨q'.pid, status⟩] else []
    | _ => []
  | _ => []

/-- What the master reads from it. -/
def reads (b : PipedCrew) (s : ServPtr) : CrewOp → List StatusRead
  | .master (.read t) _ => if t = s then [masterStatusRead (b.bytes s)] else []
  | _ => []

/-- The step replaces it. -/
def Replaces (b : PipedCrew) (s : ServPtr) : CrewOp → Prop
  | .master (.entry ent _) _ => b.family.world.entryOf ent = some s
  | _ => False

/-- A step reads from a pipe, writes to it or replaces it. -/
theorem bytes_step (hst : PipedStep b op b') :
    (b.reads s op = [masterStatusRead (b.bytes s)] ∧ b.written s op = [] ∧ b.bytes s ≠ [] ∧
        b'.bytes s = (masterStatusCode.read (b.bytes s)).2) ∨
      b.reads s op = [] ∧
        (b'.bytes s = b.bytes s ++ masterStatusCode.stream (b.written s op) ∨
          b.Replaces s op ∧ b.written s op = [] ∧ b'.bytes s = []) := by
  have hsame : ∀ bytes : Bytes, bytes = bytes ++ masterStatusCode.stream [] :=
    fun bytes => (List.append_nil bytes).symm
  cases hst with
  | call hread hst hpid hdead hfork => exact .inr ⟨rfl, .inl (hsame _)⟩
  | @entry ent fds inherited family hst =>
    refine .inr ⟨rfl, ?_⟩
    cases hentry : b.family.world.entryOf ent with
    | none => exact .inl (hsame _)
    | some t =>
      rcases eq_or_ne s t with rfl | hne
      · exact .inr ⟨hentry, rfl, Function.update_self ..⟩
      · refine .inl ?_
        simp only [reopened, Function.update_of_ne hne]
        exact hsame _
  | @read t inherited family hbytes hevent hst =>
    rcases eq_or_ne t s with rfl | hne
    · exact .inl ⟨if_pos rfl, rfl, hbytes, Function.update_self ..⟩
    · refine .inr ⟨if_neg hne, .inl ?_⟩
      simp only [Function.update_of_ne hne.symm]
      exact hsame _
  | @process p a q q' sent hq ha hcall =>
    refine .inr ⟨rfl, .inl ?_⟩
    simp only [called, written, hq, Option.bind_some, hcall]
    cases sent with
    | none => exact hsame _
    | some status =>
      dsimp only
      by_cases hpipe : q'.pipe = b.pipe q'.serv
      · rcases eq_or_ne s q'.serv with rfl | hne
        · rw [if_pos hpipe, if_pos ⟨rfl, hpipe⟩, Function.update_self,
            FrameCode.stream_singleton]
        · rw [if_pos hpipe, Function.update_of_ne hne, if_neg fun h => hne h.1.symm]
          exact hsame _
      · have hother : ¬(q'.serv = s ∧ q'.pipe = b.pipe s) := by
          rintro ⟨rfl, h⟩
          exact hpipe h
        rw [if_neg hpipe, if_neg hother]
        exact hsame _
  | kill hq ha => exact .inr ⟨rfl, .inl (hsame _)⟩

/-- The bytes of messages begin with one. -/
theorem exists_first {bytes : Bytes} {stats : List MasterStatus}
    (h : bytes = masterStatusCode.stream stats) (hne : bytes ≠ []) :
    ∃ stat stats', stats = stat :: stats' ∧ masterStatusRead bytes = .stat stat ∧
      (masterStatusCode.read bytes).2 = masterStatusCode.stream stats' := by
  obtain ⟨stat, stats', rfl⟩ : ∃ stat stats', stats = stat :: stats' := by
    refine List.exists_cons_of_ne_nil fun hnil => hne ?_
    rw [h, hnil]
    rfl
  obtain ⟨hstat, hleft⟩ := masterStatusRead_stream h
  exact ⟨stat, stats', rfl, hstat, hleft⟩

end PipedCrew

def pipedWritten (s : ServPtr) (m : PipedCrew × CrewOp × PipedCrew) : List MasterStatus :=
  m.1.written s m.2.1

def pipedReads (s : ServPtr) (m : PipedCrew × CrewOp × PipedCrew) : List StatusRead :=
  m.1.reads s m.2.1

/-- The master reads messages that processes of the service have written before, in order. Those
that are missing were in a pipe that has been replaced. -/
theorem piped_reads {b b' : PipedCrew} {tr : List (PipedCrew × CrewOp × PipedCrew)}
    (hp : pipedSystem.Path b tr b') {s : ServPtr} (hbytes : b.bytes s = []) :
    ∃ got rest : List MasterStatus, LTS.observed (pipedReads s) tr = got.map .stat ∧
      b'.bytes s = masterStatusCode.stream rest ∧
      (got ++ rest).Sublist (LTS.observed (pipedWritten s) tr) := by
  induction hp with
  | nil => exact ⟨[], [], rfl, hbytes, List.Sublist.slnil⟩
  | @snoc tr t u op hp hst ih =>
    obtain ⟨got, rest, hreads, hrest, hsub⟩ := ih
    simp only [LTS.observed_append, LTS.observed_singleton, pipedWritten, pipedReads]
    rcases PipedCrew.bytes_step (s := s) hst with
      ⟨hread, hwritten, hne, hafter⟩ | ⟨hread, hafter | ⟨-, hwritten, hafter⟩⟩
    · obtain ⟨stat, rest, rfl, hstat, hleft⟩ := PipedCrew.exists_first hrest hne
      refine ⟨got ++ [stat], rest, ?_, hafter.trans hleft, ?_⟩
      · rw [hreads, hread, hstat, List.map_append, List.map_singleton]
      · rw [hwritten, List.append_nil, List.append_assoc, List.singleton_append]
        exact hsub
    · refine ⟨got, rest ++ t.written s op, by rw [hreads, hread, List.append_nil], ?_, ?_⟩
      · rw [hafter, hrest, FrameCode.stream_append]
      · rw [← List.append_assoc]
        exact hsub.append (List.Sublist.refl _)
    · refine ⟨got, [], by rw [hreads, hread, List.append_nil], hafter, ?_⟩
      rw [hwritten, List.append_nil, List.append_nil]
      exact (List.sublist_append_left got rest).trans hsub

/-- A read of the master or a call of a process, if it is a step. -/
def pipedCall (b : PipedCrew) : CrewOp → Option PipedCrew
  | .master (.read s) _ =>
    if b.bytes s ≠ [] ∧ (b.family.world.serv s).statusFd.1 ≠ 0 then
      (familyCall b.family (.statusEvent s (masterStatusRead (b.bytes s)))).map fun family =>
        { b with
          family := family
          bytes := Function.update b.bytes s (masterStatusCode.read (b.bytes s)).2 }
    else none
  | .call p a => (b.proc p).bind fun q =>
    if q.alive then (q.call a).map fun r => b.called p r.1 r.2 else none
  | _ => none

theorem step_of_pipedCall {b b' : PipedCrew} {op : CrewOp} (h : pipedCall b op = some b') :
    pipedSystem.step b op b' := by
  cases op with
  | kill p => cases h
  | call p a =>
    obtain ⟨q, hq, h⟩ := Option.bind_eq_some_iff.1 h
    split at h
    · obtain ⟨⟨q', sent⟩, hcall, rfl⟩ := Option.map_eq_some_iff.1 h
      exact .process hq ‹_› hcall
    · cases h
  | master op inherited =>
    cases op with
    | call | entry | run | exit => cases h
    | read s =>
      simp only [pipedCall] at h
      split at h
      · rename_i hok
        obtain ⟨family, hfam, rfl⟩ := Option.map_eq_some_iff.1 h
        exact .read hok.1 hok.2 (reloadStep_of_familyCall hfam)
      · cases h

/-- The master has started `smtp`, and has forked a process for it then. -/
def smtpStarted (v : World) : PipedCrew := { pipedInit with family := ⟨v, ∅⟩ }

def smtpForked (v : World) (family : Family) : PipedCrew :=
  { smtpStarted v with
    family := family
    proc := (smtpStarted v).quiet.born smtpFiles
      ((MasterOp.availEvent 0 (some 100) 1000).forks v) }

def smtpPiped : Option PipedCrew :=
  (masterExec masterInit (.start (smtpEnt 1) smtpFds)).toOption.bind fun v =>
    (familyCall ⟨v, ∅⟩ (.availEvent 0 (some 100) 1000)).bind fun family =>
      if (v.serv 0).statusFd = smtpFds.status ∧ (v.serv 0).listenFd = smtpFds.listenFd then
        some (smtpForked v family)
      else none

theorem run_of_smtpPiped {b : PipedCrew} (h : smtpPiped = some b) :
    ∃ tr, pipedSystem.Run tr b ∧ tr.map (fun m => m.2.1) =
      [.master (.call (.start (smtpEnt 1) smtpFds)) smtpFiles,
        .master (.call (.availEvent 0 (some 100) 1000)) smtpFiles] := by
  obtain ⟨v, hv, h⟩ := Option.bind_eq_some_iff.1 h
  obtain ⟨family, hfam, h⟩ := Option.bind_eq_some_iff.1 h
  split at h
  · rename_i hfds
    obtain rfl := Option.some.inj h
    have hst : reloadSystem.step pipedInit.family (.call (.start (smtpEnt 1) smtpFds)) ⟨v, ∅⟩ :=
      step_of_quiet smtpFds_unused rfl rfl (toOption_eq_some hv)
    have hstart : pipedSystem.step pipedInit
        (.master (.call (.start (smtpEnt 1) smtpFds)) smtpFiles)
        (smtpStarted v) :=
      .call (by simp) hst (by simp [MasterOp.forks]) (by simp [MasterOp.reaped])
        (by simp [MasterOp.forks])
    have hfork : pipedSystem.step (smtpStarted v)
        (.master (.call (.availEvent 0 (some 100) 1000)) smtpFiles) (smtpForked v family) := by
      refine .call (by simp) (reloadStep_of_familyCall hfam) ?_ (by simp [MasterOp.reaped]) ?_
      · -- nothing has been written yet
        intro s pid _ t _ stats hstats stat hstat
        rw [FrameCode.stream_eq_nil_iff.1 hstats.symm] at hstat
        cases hstat
      · intro s pid hforks
        obtain ⟨x, -, hx⟩ := Option.map_eq_some_iff.1 hforks
        obtain ⟨rfl, -⟩ := Prod.mk.inj hx
        exact smtpFiles_forked hfds.1 hfds.2
    exact ⟨_, ⟨_, rfl, (LTS.Path.single hfork).cons hstart⟩, rfl⟩
  · cases h

/-- What happens when somebody else has a pipe open too. -/
inductive NoisyOp
  | crew (op : CrewOp)
  /-- Any bytes are written to the pipe of the service. -/
  | noise (s : ServPtr) (bytes : Bytes)

inductive NoisyStep : PipedCrew → NoisyOp → PipedCrew → Prop
  | crew {b b' : PipedCrew} {op : CrewOp} (hst : PipedStep b op b') : NoisyStep b (.crew op) b'
  | noise {b : PipedCrew} {s : ServPtr} {bytes : Bytes} :
      NoisyStep b (.noise s bytes)
        { b with bytes := Function.update b.bytes s (b.bytes s ++ bytes) }

def noisySystem : LTS PipedCrew NoisyOp where
  init := pipedSystem.init
  step := NoisyStep

/-- The message that a process of the service writes to its pipe. -/
def statusWritten (s : ServPtr) (m : PipedCrew × NoisyOp × PipedCrew) : List MasterStatus :=
  match m.2.1 with
  | .crew op => m.1.written s op
  | .noise _ _ => []

/-- What the master reads from it. -/
def statusReads (s : ServPtr) (m : PipedCrew × NoisyOp × PipedCrew) : List StatusRead :=
  match m.2.1 with
  | .crew op => m.1.reads s op
  | .noise _ _ => []

/-- The step writes other bytes to the pipe of the service, or replaces it. -/
def PipedCrew.Disturbs (b : PipedCrew) (s : ServPtr) : NoisyOp → Prop
  | .crew op => b.Replaces s op
  | .noise t _ => t = s

/-- The step gets too few bytes from the pipe of the service, or replaces it. -/
def PipedCrew.Resyncs (b : PipedCrew) (s : ServPtr) : NoisyOp → Prop
  | .crew (.master (.read t) _) => t = s ∧ ∃ n, masterStatusRead (b.bytes s) = .short n
  | .crew (.master (.entry ent _) _) => b.family.world.entryOf ent = some s
  | _ => False

/-- A read gets too few bytes only if there are no more. -/
theorem read_snd_of_statusShort {bytes : Bytes} {n : ℕ} (h : masterStatusRead bytes = .short n) :
    (masterStatusCode.read bytes).2 = [] := by
  unfold masterStatusRead at h
  split at h
  · cases h
  · exact FrameCode.read_snd_of_short ‹_›

theorem length_statusRead_mod {bytes : Bytes} (h : ∀ n, masterStatusRead bytes ≠ .short n) :
    (masterStatusCode.read bytes).2.length % 8 = bytes.length % 8 := by
  unfold masterStatusRead at h
  split at h
  · exact FrameCode.length_read_mod (c := masterStatusCode) ‹_›
  · exact (h _ rfl).elim

namespace PipedCrew

variable {b b' : PipedCrew} {s : ServPtr} {op : NoisyOp}

/-- A step that does not disturb a pipe reads from it or writes to it. -/
theorem noisy_step (hst : noisySystem.step b op b') (hop : ¬b.Disturbs s op) :
    (statusReads s (b, op, b') = [masterStatusRead (b.bytes s)] ∧
        statusWritten s (b, op, b') = [] ∧ b.bytes s ≠ [] ∧
        b'.bytes s = (masterStatusCode.read (b.bytes s)).2) ∨
      statusReads s (b, op, b') = [] ∧
        b'.bytes s = b.bytes s ++ masterStatusCode.stream (statusWritten s (b, op, b')) := by
  cases hst with
  | @noise t bytes =>
    refine .inr ⟨rfl, ?_⟩
    simp only [Function.update_of_ne (Ne.symm hop)]
    exact (List.append_nil _).symm
  | crew hst =>
    rcases bytes_step (s := s) hst with hread | ⟨hread, hafter | ⟨hreplaces, -⟩⟩
    · exact .inl hread
    · exact .inr ⟨hread, hafter⟩
    · exact absurd hreplaces hop

/-- A step that resynchronizes a pipe leaves it empty. -/
theorem bytes_of_resyncs (hst : noisySystem.step b op b') (hop : b.Resyncs s op) :
    b'.bytes s = [] := by
  cases hst with
  | noise => exact hop.elim
  | crew hst =>
    cases hst with
    | call | process | kill => exact hop.elim
    | @entry ent fds inherited family hst =>
      change b.family.world.entryOf ent = some s at hop
      simp only [hop, reopened, Function.update_self]
    | @read t inherited family hbytes hevent hst =>
      obtain ⟨rfl, n, hshort⟩ := hop
      simp only [Function.update_self]
      exact read_snd_of_statusShort hshort

/-- The messages in a pipe are read in order as long as nothing disturbs it. -/
theorem reads_of_path {tr : List (PipedCrew × NoisyOp × PipedCrew)} {stats : List MasterStatus}
    (hp : noisySystem.Path b tr b') (hbytes : b.bytes s = masterStatusCode.stream stats)
    (hquiet : ∀ m ∈ tr, ¬m.1.Disturbs s m.2.1) :
    ∃ got rest, stats ++ LTS.observed (statusWritten s) tr = got ++ rest ∧
      LTS.observed (statusReads s) tr = got.map .stat ∧
      b'.bytes s = masterStatusCode.stream rest := by
  induction hp with
  | nil => exact ⟨[], stats, by simp, rfl, hbytes⟩
  | @snoc tr t u op hp hst ih =>
    obtain ⟨got, rest, hgot, hreads, hrest⟩ := ih fun m hm => hquiet m (by simp [hm])
    have hop : ¬t.Disturbs s op := hquiet (t, op, u) (by simp)
    simp only [LTS.observed_append, LTS.observed_singleton]
    rcases noisy_step hst hop with ⟨hread, hwritten, hne, hafter⟩ | ⟨hread, hafter⟩
    · obtain ⟨stat, rest, rfl, hstat, hleft⟩ := exists_first hrest hne
      refine ⟨got ++ [stat], rest, ?_, ?_, hafter.trans hleft⟩
      · rw [hwritten, List.append_nil, hgot, List.append_assoc, List.singleton_append]
      · rw [hreads, hread, hstat, List.map_append, List.map_singleton]
    · refine ⟨got, rest ++ statusWritten s (t, op, u), ?_, ?_, ?_⟩
      · rw [← List.append_assoc, hgot, List.append_assoc]
      · rw [hreads, hread, List.append_nil]
      · rw [hafter, hrest, FrameCode.stream_append]

/-- How far the reads are off does not change as long as each gets a whole message. -/
theorem length_mod_of_path {tr : List (PipedCrew × NoisyOp × PipedCrew)}
    (hp : noisySystem.Path b tr b') (hquiet : ∀ m ∈ tr, ¬m.1.Disturbs s m.2.1)
    (hwhole : ∀ n, StatusRead.short n ∉ LTS.observed (statusReads s) tr) :
    (b'.bytes s).length % 8 = (b.bytes s).length % 8 := by
  induction hp with
  | nil => rfl
  | @snoc tr t u op hp hst ih =>
    simp only [LTS.observed_append, LTS.observed_singleton, List.mem_append, not_or] at hwhole
    rw [← ih (fun m hm => hquiet m (by simp [hm])) fun n => (hwhole n).1]
    rcases noisy_step hst (hquiet (t, op, u) (by simp)) with ⟨hread, -, -, hafter⟩ | ⟨-, hafter⟩
    · rw [hafter]
      refine length_statusRead_mod fun n hshort => (hwhole n).2 ?_
      rw [hread, hshort]
      exact List.mem_singleton_self _
    · have hmod := masterStatusCode.length_stream_mod (statusWritten s (t, op, u))
      rw [hafter, List.length_append]
      change _ % 8 = 0 at hmod
      omega

end PipedCrew

/-- "Hopefully the next read will be in sync again" : when a pipe with bytes that are no whole
messages gets empty, a read has got too few bytes. After such a read, or when the pipe has been
replaced, the reads get the messages that are written from then on, each of them whole, once and in
order, if nothing else is written. -/
theorem status_resync {b b' : PipedCrew} {tr : List (PipedCrew × NoisyOp × PipedCrew)}
    (hp : noisySystem.Path b tr b') (s : ServPtr) :
    ((b.bytes s).length % 8 ≠ 0 → b'.bytes s = [] → (∀ m ∈ tr, ¬m.1.Disturbs s m.2.1) →
      ∃ n, StatusRead.short n ∈ LTS.observed (statusReads s) tr) ∧
    (∀ pre m post, tr = pre ++ m :: post → m.1.Resyncs s m.2.1 →
      (∀ m ∈ post, ¬m.1.Disturbs s m.2.1) →
      ∃ got rest, LTS.observed (statusWritten s) post = got ++ rest ∧
        LTS.observed (statusReads s) post = got.map .stat ∧
        b'.bytes s = masterStatusCode.stream rest) := by
  refine ⟨fun hoff hempty hquiet => ?_, fun pre m post htr hsync hquiet => ?_⟩
  · by_contra hnone
    have hmod := PipedCrew.length_mod_of_path hp hquiet (not_exists.1 hnone)
    rw [hempty] at hmod
    exact hoff hmod.symm
  · obtain ⟨-, hst, hpost⟩ := hp.of_append_cons htr
    have hempty : m.2.2.bytes s = masterStatusCode.stream [] := PipedCrew.bytes_of_resyncs hst hsync
    exact PipedCrew.reads_of_path hpost hempty hquiet

/-- A path without other bytes is one with none of them. -/
theorem noisy_path {b b' : PipedCrew} {tr : List (PipedCrew × CrewOp × PipedCrew)}
    (hp : pipedSystem.Path b tr b') : ∃ tr', noisySystem.Path b tr' b' ∧
      tr'.map (fun m => m.2.1) = (tr.map fun m => m.2.1).map .crew := by
  induction hp with
  | nil => exact ⟨[], .nil, rfl⟩
  | snoc _ hst ih =>
    obtain ⟨tr', hp', hops⟩ := ih
    exact ⟨_, hp'.snoc (.crew hst), by simp [hops]⟩

/-- Three other bytes are in the pipe of `smtp` when its process is executed. -/
def smtpNoisy (b : PipedCrew) : PipedCrew :=
  { b with bytes := Function.update b.bytes 0 (b.bytes 0 ++ [1#8, 2#8, 3#8]) }

/-- The master reads them, and then the message of the process. -/
theorem status_resync_smtp : ∃ b b' m post, noisySystem.Reach b ∧
    noisySystem.Path b (m :: post) b' ∧ b.bytes 0 = [1#8, 2#8, 3#8] ∧
    post.map (fun m => m.2.1) = smtpServes.map .crew ∧
    (∃ n, StatusRead.short n ∈ LTS.observed (statusReads 0) (m :: post)) ∧
    ∃ got rest, LTS.observed (statusWritten 0) post = got ++ rest ∧
      LTS.observed (statusReads 0) post = got.map .stat ∧
      b'.bytes 0 = masterStatusCode.stream rest := by
  have hrun : smtpPiped.any (fun b => (smtpNoisy b).bytes 0 = [1#8, 2#8, 3#8] ∧
      ((pipedCall (smtpNoisy b) (.master (.read 0) smtpFiles)).any fun b =>
        (smtpServes.foldlM pipedCall b).any fun b => (b.bytes 0).isEmpty) = true) = true := by
    decide +kernel
  obtain ⟨b, hb, hobs⟩ := (Option.any_eq_true _ _).1 hrun
  obtain ⟨hbytes, hafter⟩ := of_decide_eq_true hobs
  obtain ⟨b₁, hb₁, hafter⟩ := (Option.any_eq_true _ _).1 hafter
  obtain ⟨b₂, hb₂, hempty⟩ := (Option.any_eq_true _ _).1 hafter
  obtain ⟨tr₀, ⟨_, rfl, hp₀⟩, -⟩ := run_of_smtpPiped hb
  obtain ⟨tr₀', hp₀', -⟩ := noisy_path hp₀
  have hnoise : noisySystem.step b (.noise 0 [1#8, 2#8, 3#8]) (smtpNoisy b) := .noise
  obtain ⟨tr₁, hp₁, hops₁⟩ := LTS.Path.of_foldlM (S := pipedSystem)
    (fun _ _ _ => step_of_pipedCall) hb₂
  obtain ⟨post, hpost, hops⟩ := noisy_path hp₁
  have hread : noisySystem.step (smtpNoisy b) (.crew (.master (.read 0) smtpFiles)) b₁ :=
    .crew (step_of_pipedCall hb₁)
  have hp := hpost.cons hread
  have hserves : post.map (fun m => m.2.1) = smtpServes.map .crew := by
    rw [hops, hops₁]
  have hops : ∀ op ∈ smtpServes.map NoisyOp.crew, ∀ b : PipedCrew, ¬b.Disturbs 0 op := by
    simp [smtpServes, PipedCrew.Disturbs, PipedCrew.Replaces]
  have hquiet : ∀ m ∈ post, ¬m.1.Disturbs 0 m.2.1 := fun m hm =>
    hops _ (hserves ▸ List.mem_map_of_mem hm) m.1
  have hshort : masterStatusRead ((smtpNoisy b).bytes 0) = .short 3 := by
    rw [hbytes]
    rfl
  obtain ⟨hfirst, hthen⟩ := status_resync hp 0
  refine ⟨_, b₂, _, post, ⟨_, _, rfl, hp₀'.snoc hnoise⟩, hp, hbytes, hserves, ?_,
    hthen [] _ post rfl ⟨rfl, 3, hshort⟩ hquiet⟩
  refine hfirst (by rw [hbytes]; decide) (List.isEmpty_iff.1 hempty) ?_
  rintro m hm
  rcases List.mem_cons.1 hm with rfl | hm
  · exact id
  · exact hquiet m hm

end Nowra
