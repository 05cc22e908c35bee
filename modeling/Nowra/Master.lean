import Mathlib.Data.List.Basic
import Nowra.Binhash
import Nowra.Events

/-!
# The process manager

The master's services, children and handlers : `master_avail.c`, `master_spawn.c`,
`master_status.c`, `master_service.c`, `master_listen.c` and `master_conf.c`. A service or a
child record is named by its address, and `World` holds what the addresses point to together
with the globals. Every call of `epoll_ctl` succeeds.

What comes from outside is an argument : the results of `fork`, `read` and `waitpid`, the
descriptors that `pipe` and `inet_listen` return, the clock, and the entries of the
configuration file.
-/

namespace Nowra

/-- The address of a `MASTER_SERV`. -/
abbrev ServPtr := ℕ

/-- The address of a `MASTER_PROC`. -/
abbrev ProcPtr := ℕ

/-- A process id, an `int`. -/
abbrev MasterPid := BitVec 32

/-! ## Data -/

/-- `MASTER_SERV_TYPE_*` -/
inductive ServType
  | unix
  | inet
  | fifo
  deriving DecidableEq

/-- `MASTER_FLAG_*` -/
structure ServFlags where
  throttle : Bool
  mark : Bool
  condwake : Bool
  inethost : Bool
  /-- Monitor this port. -/
  listen : Bool
  deriving DecidableEq

/-- A service. The unused `children` is left out, as are the endpoint's `host` and `port`,
which only `inet_listen` reads, and the link to the next service (`World.masterHead`). -/
structure MasterServ where
  flags : ServFlags
  name : String
  type : ServType
  wakeupTime : ℤ
  listenFd : ℤ
  maxProc : ℤ
  path : String
  args : List String
  availProc : ℤ
  totalProc : ℤ
  throttleDelay : ℤ
  /-- The read end and the write end of the status pipe. -/
  statusFd : ℤ × ℤ

/-- `MASTER_STAT_TAKEN` -/
def masterStatTaken : BitVec 32 := 0

/-- `MASTER_STAT_AVAIL` -/
def masterStatAvail : BitVec 32 := 1

/-- A child process. -/
structure MasterProc where
  pid : MasterPid
  avail : BitVec 32
  serv : ServPtr
  useCount : ℤ

/-- A status message. -/
structure MasterStatus where
  pid : MasterPid
  avail : BitVec 32
  deriving DecidableEq

/-- `MASTER_LIMIT_OK` -/
def masterLimitOk (limit count : ℤ) : Bool := limit = 0 ∨ count < limit

/-- The callbacks the master registers for descriptors. -/
inductive Callback
  | masterAvailEvent
  | masterStatusEvent
  deriving DecidableEq

/-- The callbacks of timers. The master registers the one, the others are unrelated to it. -/
inductive TimerCallback
  | masterUnthrottleWrapper
  | other (id : ℕ)
  deriving DecidableEq

/-- Every call of `epoll_ctl` on `master_el` succeeds. -/
instance : EpollCtl Unit := ⟨fun _ _ _ _ => some ()⟩

instance : EpollOk Unit := ⟨fun _ _ _ _ => rfl⟩

/-- The master's memory. -/
structure World where
  masterEl : EventLoop Unit Callback ServPtr
  timers : TimerQueue TimerCallback ServPtr
  /-- The services in the order of `master_head`. -/
  masterHead : List ServPtr
  serv : ServPtr → MasterServ
  proc : ProcPtr → MasterProc
  masterChildTable : Option (Binhash ProcPtr)
  /-- The addresses `mymalloc` gives next. -/
  nextServ : ServPtr
  nextProc : ProcPtr

/-- Change a service. -/
def World.updServ (w : World) (s : ServPtr) (f : MasterServ → MasterServ) : World :=
  { w with serv := Function.update w.serv s (f (w.serv s)) }

/-- Change a child record. -/
def World.updProc (w : World) (p : ProcPtr) (f : MasterProc → MasterProc) : World :=
  { w with proc := Function.update w.proc p (f (w.proc p)) }

/-- The bytes of a pid, which are its key in the table. -/
def pidKey (pid : MasterPid) : List (BitVec 8) :=
  [pid.extractLsb' 0 8, pid.extractLsb' 8 8, pid.extractLsb' 16 8, pid.extractLsb' 24 8]

/-! ## `master_avail.c` -/

/-- The decision of `master_avail_listen`. -/
def MasterServ.listenFlag (serv : MasterServ) : Bool :=
  if serv.flags.throttle ∨ serv.availProc > 0 then false
  else masterLimitOk serv.maxProc serv.totalProc

/-- Make sure that someone monitors the listen socket. -/
def masterAvailListen (w : World) (s : ServPtr) : Except Panic World := do
  let serv := w.serv s
  if serv.listenFlag ∧ ¬serv.flags.listen then
    let r ← eventEnableRw w.masterEl serv.listenFd .masterAvailEvent s eventRead
    pure ({ w with masterEl := r.2 }.updServ s fun serv =>
      { serv with flags := { serv.flags with listen := true } })
  else if ¬serv.listenFlag ∧ serv.flags.listen then
    let r ← eventDisableRw w.masterEl serv.listenFd eventRead
    pure ({ w with masterEl := r.2 }.updServ s fun serv =>
      { serv with flags := { serv.flags with listen := false } })
  else pure w

/-- One more available child process. -/
def masterAvailMore (w : World) (s : ServPtr) (p : ProcPtr) : Except Panic World :=
  if (w.proc p).avail = masterStatAvail then throw .processAlreadyAvailable
  else
    let w := w.updServ s fun serv => { serv with availProc := serv.availProc + 1 }
    let w := w.updProc p fun proc => { proc with avail := masterStatAvail }
    masterAvailListen w s

/-- One less available child process. -/
def masterAvailLess (w : World) (s : ServPtr) (p : ProcPtr) : Except Panic World :=
  if (w.proc p).avail ≠ masterStatAvail then throw .processNotAvailable
  else
    let w := w.updServ s fun serv => { serv with availProc := serv.availProc - 1 }
    let w := w.updProc p fun proc => { proc with avail := masterStatTaken }
    masterAvailListen w s

/-! ## `master_spawn.c` -/

/-- Enable process creation. -/
def masterUnthrottle (w : World) (s : ServPtr) (now : ℤ) : Except Panic World :=
  if (w.serv s).flags.throttle then
    let w := w.updServ s fun serv => { serv with flags := { serv.flags with throttle := false } }
    let w := { w with
      timers := (eventCancelTimer w.timers .masterUnthrottleWrapper s now).2 }
    masterAvailListen w s
  else pure w

/-- Suspend process creation. -/
def masterThrottle (w : World) (s : ServPtr) (now : ℤ) : Except Panic World :=
  if (w.serv s).flags.throttle then pure w
  else do
    let w := w.updServ s fun serv => { serv with flags := { serv.flags with throttle := true } }
    let r ← eventRequestTimer w.timers .masterUnthrottleWrapper s (w.serv s).throttleDelay now
    pure { w with timers := r.2 }

/-- Spawn off a new child process. `fork` is what the call returns to the master, nothing on
a failure. -/
def masterSpawn (w : World) (s : ServPtr) (fork : Option MasterPid) (now : ℤ) :
    Except Panic World :=
  let table := w.masterChildTable.getD (binhashCreate ProcPtr 0)
  let w := { w with masterChildTable := some table }
  let serv := w.serv s
  if ¬masterLimitOk serv.maxProc serv.totalProc then throw (.atProcessLimit serv.totalProc)
  else if serv.availProc > 0 then throw (.processesAvailable serv.availProc)
  else if serv.flags.throttle then throw (.throttledService serv.path)
  else
    match fork with
    | none => masterThrottle w s now
    | some pid => do
      let p := w.nextProc
      let w := { w with
        nextProc := p + 1
        proc := Function.update w.proc p { pid := pid, avail := 0, serv := s, useCount := 0 }
        masterChildTable := some (binhashEnter table (pidKey pid) p) }
      let w := w.updServ s fun serv => { serv with totalProc := serv.totalProc + 1 }
      let w ← masterAvailMore w s p
      pure (w.updServ s fun serv => { serv with flags := { serv.flags with condwake := false } })

/-- Destroy child process info. -/
def masterDeleteChild (w : World) (p : ProcPtr) : Except Panic World := do
  let s := (w.proc p).serv
  let w := w.updServ s fun serv => { serv with totalProc := serv.totalProc - 1 }
  let w ← (if (w.proc p).avail = masterStatAvail then masterAvailLess w s p
    else if masterLimitOk (w.serv s).maxProc (w.serv s).totalProc ∧ (w.serv s).availProc < 1 then
      masterAvailListen w s
    else pure w)
  let table ← binhashDelete w.masterChildTable (pidKey (w.proc p).pid)
  pure { w with masterChildTable := table }

/-- A child that `waitpid` returned, with its status, and the clock at that time. -/
structure Waited where
  pid : MasterPid
  status : ℤ
  now : ℤ

/-- One turn of the loop of `master_reap_child`. -/
def masterReap (w : World) (dead : Waited) : Except Panic World :=
  match binhashFind w.masterChildTable (pidKey dead.pid) with
  | none => throw (.unknownPid dead.pid)
  | some p => do
    let s := (w.proc p).serv
    let w ← (if dead.status ≠ 0 ∧ (w.proc p).useCount = 0 ∧ ¬(w.serv s).flags.throttle then
        masterThrottle w s dead.now
      else pure w)
    masterDeleteChild w p

/-- Reap dead children, until `waitpid` returns no more. -/
def masterReapChild (w : World) (dead : List Waited) : Except Panic World :=
  dead.foldlM masterReap w

/-- `while (serv->total_proc > 0) master_reap_child();`, where `dead` is what each call finds.
Nothing if children of the service are left after the last one. -/
def masterReapWhile (s : ServPtr) : List (List Waited) → World → Except Panic (Option World)
  | dead, w =>
    if (w.serv s).totalProc > 0 then
      match dead with
      | [] => pure none
      | d :: dead => do masterReapWhile s dead (← masterReapChild w d)
    else pure (some w)

/-- Delete all child processes of a service. The signal itself changes nothing here. -/
def masterDeleteChildren (w : World) (s : ServPtr) (dead : List (List Waited)) (now : ℤ) :
    Except Panic (Option World) := do
  let w ← masterThrottle w s now
  match ← masterReapWhile s dead w with
  | none => pure none
  | some w => some <$> masterUnthrottle w s now

/-! ## Handlers -/

/-- Create a child process to handle a connection request. -/
def masterAvailEvent (w : World) (event : ℤ) (s : ServPtr) (fork : Option MasterPid) (now : ℤ) :
    Except Panic World :=
  if event = 0 then pure w
  else if (w.serv s).flags.throttle then do
    let r ← eventDisableRw w.masterEl (w.serv s).listenFd eventRead
    pure { w with masterEl := r.2 }
  else masterSpawn w s fork now

/-- What `read` returns for a status message. -/
inductive StatusRead
  | error
  | eof
  /-- Fewer bytes than a message. -/
  | short (n : ℕ)
  | stat (stat : MasterStatus)

/-- Read a status message and update the child's record. -/
def masterStatusEvent (w : World) (event : ℤ) (s : ServPtr) (read : StatusRead) :
    Except Panic World :=
  if event = 0 then pure w
  else
    match read with
    | .error => pure w
    | .eof => throw .readEofStatus
    | .short _ => pure w
    | .stat stat =>
      match binhashFind w.masterChildTable (pidKey stat.pid) with
      | none => pure w
      | some p =>
        if (w.proc p).serv ≠ s then throw (.pointerCorruption (w.proc p).serv s)
        else if (w.proc p).avail = stat.avail then pure w
        else if stat.avail = masterStatAvail then
          masterAvailMore
            (w.updProc p fun proc => { proc with useCount := proc.useCount + 1 }) s p
        else if stat.avail = masterStatTaken then masterAvailLess w s p
        else pure w

/-- The callback of a timer. -/
def masterUnthrottleWrapper (w : World) (s : ServPtr) (now : ℤ) : Except Panic World :=
  masterUnthrottle w s now

/-! ## `master_status.c`, `master_listen.c` and `master_service.c` -/

/-- Start status event processing, `pipe` returning `fds`. -/
def masterStatusInit (w : World) (s : ServPtr) (fds : ℤ × ℤ) : Except Panic World :=
  if (w.serv s).statusFd.1 ≥ 0 ∨ (w.serv s).statusFd.2 ≥ 0 then throw .statusEventsAlreadyEnabled
  else do
    let w := w.updServ s fun serv => { serv with statusFd := fds }
    let r ← eventEnableRw w.masterEl fds.1 .masterStatusEvent s eventRead
    pure { w with masterEl := r.2 }

/-- Stop status event processing. -/
def masterStatusCleanup (w : World) (s : ServPtr) : Except Panic World :=
  if (w.serv s).statusFd.1 < 0 ∨ (w.serv s).statusFd.2 < 0 then throw .statusEventsNotEnabled
  else do
    let r ← eventDisableRw w.masterEl (w.serv s).statusFd.1 eventRead
    pure ({ w with masterEl := r.2 }.updServ s fun serv => { serv with statusFd := (-1, -1) })

/-- Enable connection requests, `inet_listen` returning `listenFd`. -/
def masterListenInit (w : World) (s : ServPtr) (listenFd : ℤ) : World :=
  w.updServ s fun serv => { serv with listenFd := listenFd }

/-- Disable connection requests. -/
def masterListenCleanup (w : World) (s : ServPtr) : World :=
  w.updServ s fun serv => { serv with listenFd := -1 }

/-- The descriptors the kernel returns while a service is started or restarted. -/
structure ServFds where
  listenFd : ℤ
  status : ℤ × ℤ

/-- Activate a service. -/
def masterStartService (w : World) (s : ServPtr) (fds : ServFds) : Except Panic World := do
  let w := masterListenInit w s fds.listenFd
  let w ← masterAvailListen w s
  masterStatusInit w s fds.status

/-- Stop monitoring and delete the children. -/
def masterAvailCleanup (w : World) (s : ServPtr) (dead : List (List Waited)) (now : ℤ) :
    Except Panic (Option World) := do
  match ← masterDeleteChildren w s dead now with
  | none => pure none
  | some w =>
    if (w.serv s).flags.listen then
      let r ← eventDisableRw w.masterEl (w.serv s).listenFd eventRead
      pure (some ({ w with masterEl := r.2 }.updServ s fun serv =>
        { serv with flags := { serv.flags with listen := false } }))
    else pure (some w)

/-- Deactivate a service. -/
def masterStopService (w : World) (s : ServPtr) (dead : List (List Waited)) (now : ℤ) :
    Except Panic (Option World) := do
  let w ← masterStatusCleanup w s
  match ← masterAvailCleanup w s dead now with
  | none => pure none
  | some w => pure (some (masterListenCleanup w s))

/-- Restart a service after configuration reload. -/
def masterRestartService (w : World) (s : ServPtr) (status : ℤ × ℤ) : Except Panic World := do
  let w ← masterStatusCleanup w s
  masterStatusInit w s status

/-! ## `master_conf.c` -/

/-- `var_throttle_time` -/
def varThrottleTime : ℤ := 10

/-- What a line of the configuration file says. Only `inet` services are accepted, and
`get_int_ent` refuses a negative field. -/
structure MasterEnt where
  name : String
  inethost : Bool
  wakeupTime : ℤ
  condwake : Bool
  maxProc : ℤ
  path : String
  args : List String
  maxProc_nonneg : 0 ≤ maxProc
  wakeupTime_nonneg : 0 ≤ wakeupTime

/-- The entry that `get_master_ent` returns for a line. -/
def getMasterEnt (ent : MasterEnt) : MasterServ where
  flags := ⟨false, false, ent.condwake, ent.inethost, false⟩
  name := ent.name
  type := .inet
  wakeupTime := ent.wakeupTime
  listenFd := -1
  maxProc := ent.maxProc
  path := ent.path
  args := ent.args
  availProc := 0
  totalProc := 0
  throttleDelay := varThrottleTime
  statusFd := (-1, -1)

/-- Add a new service entry. -/
def masterConfigNew (w : World) (ent : MasterEnt) (fds : ServFds) : Except Panic World :=
  let entry := w.nextServ
  let w := { w with
    serv := Function.update w.serv entry (getMasterEnt ent)
    nextServ := entry + 1
    masterHead := entry :: w.masterHead }
  masterStartService w entry fds

/-- Update an existing service entry. -/
def masterConfigUpdate (w : World) (s : ServPtr) (ent : MasterEnt) (status : ℤ × ℤ) :
    Except Panic World :=
  let entry := getMasterEnt ent
  let w := w.updServ s fun serv => { serv with
    flags := { serv.flags with mark := false, condwake := entry.flags.condwake }
    wakeupTime := entry.wakeupTime
    maxProc := entry.maxProc
    throttleDelay := entry.throttleDelay
    path := entry.path
    args := entry.args }
  masterRestartService w s status

/-- One turn of the loop of `master_config`. -/
def masterConfigEnt (w : World) (line : MasterEnt × ServFds) : Except Panic World :=
  let entry := getMasterEnt line.1
  match w.masterHead.find? fun s => (w.serv s).name = entry.name ∧ (w.serv s).type = entry.type with
  | none => masterConfigNew w line.1 line.2
  | some s => masterConfigUpdate w s line.1 line.2.status

/-- Read the configuration file, whose lines are given with the descriptors the kernel returns
for each. -/
def masterConfig (w : World) (lines : List (MasterEnt × ServFds)) : Except Panic World :=
  lines.foldlM masterConfigEnt w

/-- Mark all existing services. -/
def masterMark (w : World) : World :=
  { w with serv := fun s => if s ∈ w.masterHead then
      { w.serv s with flags := { (w.serv s).flags with mark := true } } else w.serv s }

/-- Take a service off the list and stop it. -/
def masterRemove (w : World) (s : ServPtr) (dead : List (List Waited)) (now : ℤ) :
    Except Panic (Option World) :=
  masterStopService { w with masterHead := w.masterHead.filter (· ≠ s) } s dead now

/-- Delete the services of a list that are still marked. `dead` is what the reaps find for
each of them. -/
def masterSweep (dead : ServPtr → List (List Waited)) (now : ℤ) :
    List ServPtr → World → Except Panic (Option World)
  | [], w => pure (some w)
  | s :: list, w =>
    if (w.serv s).flags.mark then do
      match ← masterRemove w s (dead s) now with
      | none => pure none
      | some w => masterSweep dead now list w
    else masterSweep dead now list w

/-- Re-read the configuration table. -/
def masterRefresh (w : World) (lines : List (MasterEnt × ServFds))
    (dead : ServPtr → List (List Waited)) (now : ℤ) : Except Panic (Option World) := do
  let w ← masterConfig (masterMark w) lines
  masterSweep dead now w.masterHead w

/-! ## The start -/

/-- `MASTER_MAX_CLIENTS` -/
def masterMaxClients : ℤ := 10000

/-- A `MASTER_SERV` that `get_master_ent` has not filled in. -/
def masterServNone : MasterServ where
  flags := ⟨false, false, false, false, false⟩
  name := ""
  type := .inet
  wakeupTime := 0
  listenFd := -1
  maxProc := 0
  path := ""
  args := []
  availProc := 0
  totalProc := 0
  throttleDelay := 0
  statusFd := (-1, -1)

/-- The master in `main`, before `master_config`. -/
def masterInit : World where
  masterEl := eventInit Callback ServPtr masterMaxClients ()
  timers := ⟨0, []⟩
  masterHead := []
  serv _ := masterServNone
  proc _ := ⟨0, 0, 0, 0⟩
  masterChildTable := none
  nextServ := 0
  nextProc := 0

end Nowra
