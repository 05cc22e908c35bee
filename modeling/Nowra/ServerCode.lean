import Mathlib.Data.Fintype.Basic
import Mathlib.Tactic.FinCases
import Nowra.Children
import Nowra.Iostuff

/-!
# The code of a child

What the child's branch of `master_spawn` and `single_server.c` do after `fork`, one system call at
a time, on the descriptors that the process has. A process is the calls that it has left, a call
that the kernel answers may put further ones in front of them, and the process ends where the code
is fatal (`ServerProc.call`).

A process is always at one of few places, with the descriptors it should have there (`Placed`).
Between connections these are the ones it was executed with and the one of its event loop, and the
service gets the connection blocking and close-on-exec. The calls that are left tell where in
`ServerPhase` the process is, and a step of the code is a step of that or does not show
(`ServerProc.Ok.call`).
-/

namespace Nowra

/-! ## Descriptors -/

/-- What a descriptor of a child refers to, as seen from its service. -/
inductive FileObject
  /-- The ends of the status pipe. -/
  | statusRead
  | statusWrite
  /-- The listen socket. -/
  | listen
  /-- The event loop of the process. -/
  | epoll
  | connection
  | other (n : ℕ)
  deriving DecidableEq

structure FileEntry where
  object : FileObject
  closeOnExec : Bool
  nonBlocking : Bool
  deriving DecidableEq

/-- The open descriptors of a process. -/
abbrev FileTable := ℤ → Option FileEntry

/-- `MASTER_STATUS_FD` -/
def masterStatusFd : ℤ := 3

/-- `MASTER_LISTEN_FD` -/
def masterListenFd : ℤ := 4

/-- What `exec` leaves of the descriptors. -/
def FileTable.executed (files : FileTable) : FileTable := fun fd =>
  (files fd).filter fun entry => !entry.closeOnExec

/-- The object that a descriptor refers to. -/
def FileTable.object (files : FileTable) (fd : ℤ) : Option FileObject := (files fd).map (·.object)

/-! ## Calls -/

/-- A call, or a test that can be fatal. -/
inductive ServerInstr
  | close (fd : ℤ)
  /-- `if (fd <= limit) msg_fatal(…)` -/
  | collision (fd limit : ℤ)
  | dup2 (fd newFd : ℤ)
  | execvp
  | nonBlocking (fd : ℤ) (on : Bool)
  | closeOnExec (fd : ℤ) (on : Bool)
  | eventInit
  | eventEnableRw (fd : ℤ)
  /-- `event_wait` in the loop of `single_server_main` -/
  | eventWait
  /-- `single_server_pre_accept` -/
  | preAccept
  | inetAccept
  | masterNotify (status : BitVec 32)
  /-- `single_server_service` -/
  | service (fd : ℤ)
  deriving DecidableEq

/-- The child's branch of `master_spawn`. -/
def masterSpawnCode (statusFd : ℤ × ℤ) (listenFd : ℤ) : List ServerInstr :=
  [.close statusFd.1, .collision statusFd.2 masterStatusFd, .dup2 statusFd.2 masterStatusFd,
    .close statusFd.2, .collision listenFd masterListenFd, .dup2 listenFd masterListenFd,
    .close listenFd, .execvp]

/-- `single_server_main`, once the options are read. -/
def singleServerMainCode : List ServerInstr :=
  [.eventInit, .eventEnableRw masterListenFd, .closeOnExec masterListenFd true, .eventWait]

/-- `single_server_accept_inet` -/
def singleServerAcceptInetCode : List ServerInstr := [.preAccept, .inetAccept]

/-- `single_server_wakeup` -/
def singleServerWakeupCode (fd : ℤ) : List ServerInstr :=
  [.nonBlocking fd false, .closeOnExec fd true, .masterNotify masterStatTaken, .service fd,
    .close fd, .masterNotify masterStatAvail]

/-- `accept_ok_errors` : `EAGAIN`, `ECONNREFUSED`, `ECONNRESET`, `EHOSTDOWN`, `EHOSTUNREACH`,
`EINTR`, `ENETDOWN`, `ENETUNREACH`, `ENOTCONN` and `EWOULDBLOCK`. -/
def acceptOkErrors : List ℤ := [eagain, 111, 104, 112, 113, eintr, 100, 101, 107, eagain]

/-- `errno` after `sane_accept` has failed. -/
def saneAccept (errno : ℤ) : ℤ := if errno ∈ acceptOkErrors then eagain else errno

/-- How a call ends. -/
inductive ServerAnswer
  | done
  | failed (errno : ℤ)
  /-- A new descriptor, which may be blocking or not. -/
  | opened (fd : ℤ) (blocks : Bool)

/-- What a call does. -/
inductive ServerEffect
  | exits
  /-- The descriptors, the calls that come next, and a message for the master. -/
  | goes (files : FileTable) (next : List ServerInstr) (sent : Option (BitVec 32))

/-- Change the entry of a descriptor. A descriptor that is not open is fatal. -/
def FileTable.change (files : FileTable) (fd : ℤ) (f : FileEntry → FileEntry) : ServerEffect :=
  match files fd with
  | none => .exits
  | some entry => .goes (Function.update files fd (some (f entry))) [] none

/-- A call with an answer, nothing if there is no such answer. A message goes out if the descriptor
is the write end of the status pipe, and is not reported back. The service leaves the descriptors
alone. An event loop that cannot be set up is a panic when it is used, and one that cannot watch the
listen socket waits for ever, as one that is interrupted does. -/
def ServerInstr.effect (files : FileTable) : ServerInstr → ServerAnswer → Option ServerEffect
  | .close fd, .done => some (.goes (Function.update files fd none) [] none)
  | .collision fd limit, .done => some (if fd ≤ limit then .exits else .goes files [] none)
  | .dup2 fd newFd, .done =>
    some (match files fd with
      | none => .exits
      | some entry =>
        if fd = newFd then .goes files [] none
        else .goes (Function.update files newFd (some { entry with closeOnExec := false })) [] none)
  | .dup2 _ _, .failed _ => some .exits
  | .execvp, .done => some (.goes files.executed singleServerMainCode none)
  | .execvp, .failed _ => some .exits
  | .nonBlocking fd on, .done =>
    some (files.change fd fun entry => { entry with nonBlocking := on })
  | .nonBlocking _ _, .failed _ => some .exits
  | .closeOnExec fd on, .done =>
    some (files.change fd fun entry => { entry with closeOnExec := on })
  | .closeOnExec _ _, .failed _ => some .exits
  | .eventInit, .opened fd blocks =>
    if files fd = none then
      some (.goes (Function.update files fd (some ⟨.epoll, false, !blocks⟩)) [] none)
    else none
  | .eventInit, .failed _ => some .exits
  | .eventEnableRw _, .done | .eventEnableRw _, .failed _ => some (.goes files [] none)
  | .eventWait, .done =>
    some (.goes files (singleServerAcceptInetCode ++ [.eventWait]) none)
  | .eventWait, .failed errno =>
    some (if errno ≠ eintr then .exits else .goes files [.eventWait] none)
  | .preAccept, .done => some (.goes files [] none)
  | .inetAccept, .opened fd blocks =>
    if files fd = none ∧ files.object masterListenFd = some .listen then
      some (.goes (Function.update files fd (some ⟨.connection, false, !blocks⟩))
        (singleServerWakeupCode fd) none)
    else none
  | .inetAccept, .failed errno =>
    some (if saneAccept errno ≠ eagain then .exits else .goes files [] none)
  | .masterNotify status, .done =>
    some (.goes files []
      (if files.object masterStatusFd = some .statusWrite then some status else none))
  | .service _, .done => some (.goes files [] none)
  | .service _, .failed _ => some .exits
  | _, _ => none

/-- The phase of a process that has the calls left. -/
def serverPhase : List ServerInstr → ServerPhase
  | [] => .idle
  | .eventWait :: _ => .idle
  | .masterNotify status :: _ => if status = masterStatTaken then .accepted else .served
  | .service _ :: _ => .serving
  | _ :: code => serverPhase code

/-! ## Processes -/

/-- A process that `master_spawn` has forked. -/
structure ServerProc where
  /-- `var_pid` -/
  pid : MasterPid
  serv : ServPtr
  /-- Which of the pipes that its service has had it was forked with. -/
  pipe : ℕ
  alive : Bool
  code : List ServerInstr
  files : FileTable
  /-- The descriptors of the service, and all that are open, in the master when it forks. -/
  statusFd : ℤ × ℤ
  listenFd : ℤ
  inherited : FileTable

namespace ServerProc

/-- The master has the pipe and the socket of the service open, each once, and the process has no
connection yet. -/
structure Forked (q : ServerProc) : Prop where
  write : q.inherited.object q.statusFd.2 = some .statusWrite
  listen : q.inherited.object q.listenFd = some .listen
  ends : q.statusFd.1 ≠ q.statusFd.2
  read_ne : q.statusFd.1 ≠ q.listenFd
  write_ne : q.statusFd.2 ≠ q.listenFd
  fresh : ∀ fd, q.inherited.object fd ≠ some .connection

/-- What the descriptors of the process refer to when it has been executed. -/
def executed (q : ServerProc) (fd : ℤ) : Option FileObject :=
  if fd = masterListenFd then some .listen
  else if fd = masterStatusFd then some .statusWrite
  else if fd = q.statusFd.1 ∨ fd = q.statusFd.2 ∨ fd = q.listenFd then none
  else q.inherited.executed.object fd

/-- The same once there is an event loop. -/
def polled (q : ServerProc) (epfd : ℤ) : ℤ → Option FileObject :=
  Function.update q.executed epfd (some .epoll)

/-- A process after a call, and what it has sent. -/
def after (q : ServerProc) (code : List ServerInstr) :
    ServerEffect → ServerProc × Option (BitVec 32)
  | .exits => ({ q with alive := false }, none)
  | .goes files next sent => ({ q with files := files, code := next ++ code }, sent)

/-- The next call of a process. -/
def call (q : ServerProc) (a : ServerAnswer) : Option (ServerProc × Option (BitVec 32)) :=
  match q.code with
  | [] => none
  | i :: code => (i.effect q.files a).map (q.after code)

end ServerProc

/-- What the child's branch of `master_spawn` comes to if no call fails, nothing if it is fatal. -/
def spawnOutcome : List ServerInstr → FileTable → Option FileTable
  | [], _ => none
  | i :: code, files =>
    if i = .execvp then some files.executed
    else
      match i.effect files .done with
      | some (.goes files _ _) => spawnOutcome code files
      | _ => none

/-- A process is executed with the descriptors it should have. -/
theorem spawnOutcome_object {q : ServerProc} (hq : q.Forked) {files : FileTable}
    (h : spawnOutcome (masterSpawnCode q.statusFd q.listenFd) q.inherited = some files) :
    files.object = q.executed := by
  obtain ⟨write, hwrite, hwrite'⟩ := Option.map_eq_some_iff.1 hq.write
  obtain ⟨listen, hlisten, hlisten'⟩ := Option.map_eq_some_iff.1 hq.listen
  have hread := hq.ends
  have hread' := hq.read_ne
  have hne := hq.write_ne
  unfold masterSpawnCode at h
  simp only [spawnOutcome, ServerInstr.effect, reduceCtorEq, if_false] at h
  rcases le_or_gt q.statusFd.2 masterStatusFd with hle | hstatus
  · simp [hle] at h
  rw [if_neg (not_le.2 hstatus)] at h
  simp only [Function.update_of_ne hread.symm, hwrite, if_neg hstatus.ne'] at h
  rcases le_or_gt q.listenFd masterListenFd with hle | hlistenFd
  · simp [hle] at h
  rw [if_neg (not_le.2 hlistenFd)] at h
  have hne' : q.listenFd ≠ masterStatusFd := by
    unfold masterStatusFd masterListenFd at *
    omega
  simp only [Function.update_of_ne hne.symm, Function.update_of_ne hne', hlisten,
    Function.update_of_ne hread'.symm, if_neg hlistenFd.ne', if_true, Option.some.injEq] at h
  subst h
  funext fd
  unfold FileTable.object FileTable.executed ServerProc.executed
  simp only [Function.update_apply]
  by_cases hfd₄ : fd = masterListenFd
  · simp [hfd₄, hlistenFd.ne, hlisten']
  by_cases hfd₃ : fd = masterStatusFd
  · simp [hfd₃, hne'.symm, hstatus.ne, hwrite', show masterStatusFd ≠ masterListenFd by decide]
  by_cases hown : fd = q.statusFd.1 ∨ fd = q.statusFd.2 ∨ fd = q.listenFd
  · rcases hown with rfl | rfl | rfl <;> simp [hfd₃, hfd₄]
  · rw [not_or, not_or] at hown
    simp [hfd₃, hfd₄, hown, FileTable.object, FileTable.executed]

/-! ## Places -/

/-- What a process that has been executed and has no connection has left. -/
def readyCodes : List (List ServerInstr) :=
  [singleServerMainCode.drop 1, singleServerMainCode.drop 2, [.eventWait],
    singleServerAcceptInetCode ++ [.eventWait], [.inetAccept, .eventWait],
    [.masterNotify masterStatAvail, .eventWait]]

namespace ServerProc

/-- Where a process can be, and its descriptors there. -/
inductive Placed (q : ServerProc) : Prop
  /-- In the branch of `master_spawn`, which comes to the same as it did from the start. -/
  | spawning (hcode : q.code <:+ masterSpawnCode q.statusFd q.listenFd)
      (hfiles : spawnOutcome q.code q.files =
        spawnOutcome (masterSpawnCode q.statusFd q.listenFd) q.inherited)
      (hfresh : ∀ fd, q.files.object fd ≠ some .connection)
  | starting (hcode : q.code = singleServerMainCode) (hfiles : q.files.object = q.executed)
  | ready (epfd : ℤ) (hcode : q.code ∈ readyCodes) (hepfd : q.executed epfd = none)
      (hfiles : q.files.object = q.polled epfd)
  /-- After so many calls of `single_server_wakeup`. -/
  | connected (epfd fd : ℤ) (n : Fin 5)
      (hcode : q.code = (singleServerWakeupCode fd).drop n ++ [.eventWait])
      (hepfd : q.executed epfd = none) (hfd : q.polled epfd fd = none)
      (hfiles : q.files.object = Function.update (q.polled epfd) fd (some .connection))
      (hblock : 0 < n → (q.files fd).map (·.nonBlocking) = some false)
      (hexec : 1 < n → (q.files fd).map (·.closeOnExec) = some true)

/-- The process is at some place, and was forked from a master with the service's descriptors. -/
structure Ok (q : ServerProc) : Prop where
  forked : q.Forked
  placed : q.Placed

/-- `files` and `code` in the place of what the process has. -/
def goes (q : ServerProc) (files : FileTable) (code : List ServerInstr) : ServerProc :=
  { q with files := files, code := code }

variable {q : ServerProc}

/-- A process that is forked starts with the branch of `master_spawn`. -/
theorem ok_of_fork (hq : q.Forked) (hcode : q.code = masterSpawnCode q.statusFd q.listenFd)
    (hfiles : q.files = q.inherited) : q.Ok :=
  ⟨hq, .spawning (by rw [hcode]) (by rw [hcode, hfiles]) (by rw [hfiles]; exact hq.fresh)⟩

end ServerProc

/-! ## Steps -/

namespace FileTable

variable {files files' : FileTable} {fd : ℤ} {entry : FileEntry}

theorem object_update (entry : Option FileEntry) :
    object (Function.update files fd entry) =
      Function.update files.object fd (entry.map (·.object)) := by
  funext x
  unfold object
  rcases eq_or_ne x fd with rfl | hne
  · rw [Function.update_self, Function.update_self]
  · rw [Function.update_of_ne hne, Function.update_of_ne hne]

/-- A change of flags leaves what the descriptors refer to. -/
theorem change_goes {f : FileEntry → FileEntry} {next : List ServerInstr}
    {sent : Option (BitVec 32)} (hf : ∀ entry, (f entry).object = entry.object)
    (h : files.change fd f = .goes files' next sent) :
    (next = [] ∧ sent = none) ∧ files'.object = files.object ∧ files' fd = (files fd).map f := by
  unfold change at h
  cases hfd : files fd with
  | none =>
    rw [hfd] at h
    cases h
  | some entry =>
    rw [hfd] at h
    cases h
    refine ⟨⟨rfl, rfl⟩, ?_, Function.update_self ..⟩
    rw [object_update, Option.map_some, hf]
    refine Function.update_eq_self_iff.2 ?_
    rw [object, hfd, Option.map_some]

end FileTable

/-- A phase stays, or the process goes to the next one and notifies what is notified on the way. -/
def ServerPhase.Goes (φ φ' : ServerPhase) (sent : Option (BitVec 32)) : Prop :=
  φ' = φ ∧ sent = none ∨ φ.next = (φ', sent)

namespace ServerProc

variable {q : ServerProc} {i : ServerInstr} {code next : List ServerInstr} {files : FileTable}
  {a : ServerAnswer} {sent : Option (BitVec 32)}

/-- A call of the branch of `master_spawn` that goes on was not answered with an error. -/
theorem done_of_spawning {statusFd : ℤ × ℤ} {listenFd : ℤ}
    (hi : i ∈ masterSpawnCode statusFd listenFd)
    (heff : i.effect q.files a = some (.goes files next sent)) : a = .done := by
  simp only [masterSpawnCode, List.mem_cons, List.not_mem_nil, or_false] at hi
  rcases hi with rfl | rfl | rfl | rfl | rfl | rfl | rfl | rfl <;>
    cases a <;> first | rfl | simp [ServerInstr.effect] at heff

/-- After a call the process goes on with those it has left, it sends nothing, and nothing new is
open. -/
structure Quiet (files files' : FileTable) (next : List ServerInstr) (sent : Option (BitVec 32)) :
    Prop where
  next : next = []
  sent : sent = none
  old : ∀ fd, files'.object fd = none ∨ ∃ fd', files'.object fd = files.object fd'

theorem quiet_close {fd : ℤ}
    (heff : (ServerInstr.close fd).effect q.files .done = some (.goes files next sent)) :
    Quiet q.files files next sent := by
  cases heff
  refine ⟨rfl, rfl, fun x => ?_⟩
  rw [FileTable.object_update]
  rcases eq_or_ne x fd with rfl | hne
  · exact Or.inl (Function.update_self ..)
  · exact Or.inr ⟨x, Function.update_of_ne hne ..⟩

theorem quiet_collision {fd limit : ℤ}
    (heff : (ServerInstr.collision fd limit).effect q.files .done =
      some (.goes files next sent)) : Quiet q.files files next sent := by
  simp only [ServerInstr.effect, Option.some.injEq] at heff
  split at heff
  · cases heff
  · cases heff
    exact ⟨rfl, rfl, fun x => Or.inr ⟨x, rfl⟩⟩

theorem quiet_dup2 {fd newFd : ℤ}
    (heff : (ServerInstr.dup2 fd newFd).effect q.files .done = some (.goes files next sent)) :
    Quiet q.files files next sent := by
  simp only [ServerInstr.effect, Option.some.injEq] at heff
  split at heff
  · cases heff
  · rename_i entry hentry
    split at heff
    · cases heff
      exact ⟨rfl, rfl, fun x => Or.inr ⟨x, rfl⟩⟩
    · cases heff
      refine ⟨rfl, rfl, fun x => Or.inr ?_⟩
      rw [FileTable.object_update]
      rcases eq_or_ne x newFd with rfl | hne
      · refine ⟨fd, ?_⟩
        rw [Function.update_self, FileTable.object, hentry]
        rfl
      · exact ⟨x, Function.update_of_ne hne ..⟩

/-- The calls of the branch other than `execvp` are quiet. -/
theorem quiet_of_spawning {statusFd : ℤ × ℤ} {listenFd : ℤ}
    (hi : i ∈ masterSpawnCode statusFd listenFd) (hexec : i ≠ .execvp)
    (heff : i.effect q.files .done = some (.goes files next sent)) :
    Quiet q.files files next sent := by
  simp only [masterSpawnCode, List.mem_cons, List.not_mem_nil, or_false] at hi
  rcases hi with rfl | rfl | rfl | rfl | rfl | rfl | rfl | rfl
  · exact quiet_close heff
  · exact quiet_collision heff
  · exact quiet_dup2 heff
  · exact quiet_close heff
  · exact quiet_collision heff
  · exact quiet_dup2 heff
  · exact quiet_close heff
  · exact (hexec rfl).elim

theorem spawning_goes (hq : q.Forked) (hi : q.code = i :: code)
    (hcode : q.code <:+ masterSpawnCode q.statusFd q.listenFd)
    (hfiles : spawnOutcome q.code q.files =
      spawnOutcome (masterSpawnCode q.statusFd q.listenFd) q.inherited)
    (hfresh : ∀ fd, q.files.object fd ≠ some .connection)
    (heff : i.effect q.files a = some (.goes files next sent)) :
    (q.goes files (next ++ code)).Placed ∧
      (serverPhase q.code).Goes (serverPhase (next ++ code)) sent := by
  rw [hi] at hcode hfiles ⊢
  have hmem : i ∈ masterSpawnCode q.statusFd q.listenFd := hcode.subset List.mem_cons_self
  obtain rfl := done_of_spawning hmem heff
  rcases eq_or_ne i .execvp with rfl | hexec
  · obtain rfl : code = [] := by
      simpa [masterSpawnCode, List.suffix_cons_iff] using hcode
    cases heff
    rw [spawnOutcome, if_pos rfl] at hfiles
    exact ⟨.starting rfl (spawnOutcome_object hq hfiles.symm), .inl ⟨rfl, rfl⟩⟩
  · obtain ⟨rfl, rfl, hold⟩ := quiet_of_spawning hmem hexec heff
    rw [spawnOutcome, if_neg hexec, heff] at hfiles
    refine ⟨.spawning ((List.suffix_cons i code).trans hcode) hfiles fun fd hfd => ?_,
      .inl ⟨?_, rfl⟩⟩
    · change files.object fd = _ at hfd
      rcases hold fd with hnone | ⟨fd', he⟩
      · rw [hnone] at hfd
        cases hfd
      · exact hfresh fd' (he ▸ hfd)
    · simp only [masterSpawnCode, List.mem_cons, List.not_mem_nil, or_false] at hmem
      rcases hmem with rfl | rfl | rfl | rfl | rfl | rfl | rfl | rfl <;> rfl

theorem starting_goes (hi : q.code = i :: code) (hcode : q.code = singleServerMainCode)
    (hfiles : q.files.object = q.executed)
    (heff : i.effect q.files a = some (.goes files next sent)) :
    (q.goes files (next ++ code)).Placed ∧
      (serverPhase q.code).Goes (serverPhase (next ++ code)) sent := by
  rw [hi] at hcode ⊢
  obtain ⟨rfl, rfl⟩ := List.cons.inj hcode
  cases a with
  | done => cases heff
  | failed errno => cases heff
  | opened fd blocks =>
    simp only [ServerInstr.effect] at heff
    split at heff
    · rename_i hfd
      cases heff
      refine ⟨.ready fd (by simp [goes, readyCodes, singleServerMainCode]) ?_ ?_,
        .inl ⟨rfl, rfl⟩⟩
      · change q.executed fd = none
        rw [← hfiles, FileTable.object, hfd, Option.map_none]
      · change FileTable.object (Function.update _ _ _) = q.polled fd
        rw [FileTable.object_update, hfiles]
        rfl
    · cases heff

/-- The descriptor of the listen socket, and the write end of the status pipe, stay. -/
theorem polled_of_ne {epfd fd : ℤ} (hepfd : q.executed epfd = none)
    (hfd : q.executed fd ≠ none) : q.polled epfd fd = q.executed fd := by
  have hne : fd ≠ epfd := fun he => hfd (he ▸ hepfd)
  exact Function.update_of_ne hne _ _

theorem executed_status : q.executed masterStatusFd = some .statusWrite := rfl

theorem executed_listen : q.executed masterListenFd = some .listen := rfl

theorem ready_goes {epfd : ℤ} (hi : q.code = i :: code) (hcode : q.code ∈ readyCodes)
    (hepfd : q.executed epfd = none) (hfiles : q.files.object = q.polled epfd)
    (heff : i.effect q.files a = some (.goes files next sent)) :
    (q.goes files (next ++ code)).Placed ∧
      (serverPhase q.code).Goes (serverPhase (next ++ code)) sent := by
  rw [hi] at hcode ⊢
  -- the calls that leave the descriptors as they are
  have hstays : ∀ files' : FileTable, files'.object = q.files.object → ∀ code' ∈ readyCodes,
      (q.goes files' code').Placed := fun files' hfiles' code' hcode' =>
    .ready epfd hcode' hepfd (hfiles'.trans hfiles)
  simp only [readyCodes, singleServerMainCode, singleServerAcceptInetCode, List.drop_succ_cons,
    List.drop_zero, List.cons_append, List.nil_append, List.mem_cons, List.cons.injEq,
    List.not_mem_nil, or_false] at hcode
  rcases hcode with ⟨rfl, rfl⟩ | ⟨rfl, rfl⟩ | ⟨rfl, rfl⟩ | ⟨rfl, rfl⟩ | ⟨rfl, rfl⟩ | ⟨rfl, rfl⟩
  · -- event_enable_rw
    cases a <;> cases heff <;>
      exact ⟨hstays _ rfl _ (by simp [readyCodes, singleServerMainCode]), .inl ⟨rfl, rfl⟩⟩
  · -- close_on_exec
    cases a with
    | done =>
      obtain ⟨⟨rfl, rfl⟩, hobj, -⟩ := FileTable.change_goes
        (f := fun entry => { entry with closeOnExec := true }) (fun _ => rfl)
        (Option.some.inj heff)
      exact ⟨hstays _ hobj _ (by simp [readyCodes]), .inl ⟨rfl, rfl⟩⟩
    | failed errno => cases heff
    | opened fd blocks => cases heff
  · -- event_wait
    cases a with
    | done =>
      cases heff
      exact ⟨hstays _ rfl _ (by simp [readyCodes]), .inl ⟨rfl, rfl⟩⟩
    | failed errno =>
      simp only [ServerInstr.effect] at heff
      split at heff
      · cases heff
      · cases heff
        exact ⟨hstays _ rfl _ (by simp [readyCodes]), .inl ⟨rfl, rfl⟩⟩
    | opened fd blocks => cases heff
  · -- single_server_pre_accept
    cases a <;> cases heff
    exact ⟨hstays _ rfl _ (by simp [readyCodes]), .inl ⟨rfl, rfl⟩⟩
  · -- inet_accept
    cases a with
    | done => cases heff
    | failed errno =>
      simp only [ServerInstr.effect] at heff
      split at heff
      · cases heff
      · cases heff
        exact ⟨hstays _ rfl _ (by simp [readyCodes]), .inl ⟨rfl, rfl⟩⟩
    | opened fd blocks =>
      simp only [ServerInstr.effect] at heff
      split at heff
      · rename_i hfd
        cases heff
        refine ⟨.connected epfd fd 0 rfl hepfd ?_ ?_ ?_ ?_, .inr rfl⟩
        · change q.polled epfd fd = none
          rw [← hfiles, FileTable.object, hfd.1, Option.map_none]
        · change FileTable.object (Function.update _ _ _) = _
          rw [FileTable.object_update, hfiles]
          rfl
        · exact fun h => absurd h (by decide)
        · exact fun h => absurd h (by decide)
      · cases heff
  · -- master_notify
    cases a <;> cases heff
    have hstatus : q.files.object masterStatusFd = some .statusWrite := by
      rw [hfiles, polled_of_ne hepfd (by simp [executed_status]), executed_status]
    refine ⟨hstays _ rfl _ (by simp [readyCodes]), .inr ?_⟩
    rw [if_pos hstatus]
    rfl

/-- The connection is not one of the descriptors that the process has had. -/
theorem connected_status {epfd fd : ℤ} (hepfd : q.executed epfd = none)
    (hfd : q.polled epfd fd = none)
    (hfiles : q.files.object = Function.update (q.polled epfd) fd (some .connection)) :
    q.files.object masterStatusFd = some .statusWrite := by
  have hstatus : q.polled epfd masterStatusFd = some .statusWrite := by
    rw [polled_of_ne hepfd (by simp [executed_status]), executed_status]
  have hne : masterStatusFd ≠ fd := by
    rintro rfl
    rw [hfd] at hstatus
    cases hstatus
  rw [hfiles, Function.update_of_ne hne, hstatus]

theorem connected_goes {epfd fd : ℤ} (n : Fin 5) (hi : q.code = i :: code)
    (hcode : q.code = (singleServerWakeupCode fd).drop n ++ [.eventWait])
    (hepfd : q.executed epfd = none) (hfd : q.polled epfd fd = none)
    (hfiles : q.files.object = Function.update (q.polled epfd) fd (some .connection))
    (hblock : 0 < n → (q.files fd).map (·.nonBlocking) = some false)
    (hexec : 1 < n → (q.files fd).map (·.closeOnExec) = some true)
    (heff : i.effect q.files a = some (.goes files next sent)) :
    (q.goes files (next ++ code)).Placed ∧
      (serverPhase q.code).Goes (serverPhase (next ++ code)) sent := by
  rw [hi] at hcode ⊢
  obtain ⟨entry, hentry⟩ : ∃ entry, q.files fd = some entry := by
    have hconn := congrFun hfiles fd
    rw [Function.update_self] at hconn
    exact (Option.map_eq_some_iff.1 hconn).imp fun _ h => h.1
  fin_cases n
  · -- non_blocking
    obtain ⟨rfl, rfl⟩ := List.cons.inj hcode
    cases a with
    | done =>
      obtain ⟨⟨rfl, rfl⟩, hobj, hentry'⟩ := FileTable.change_goes
        (f := fun entry => { entry with nonBlocking := false }) (fun _ => rfl)
        (Option.some.inj heff)
      refine ⟨.connected epfd fd 1 rfl hepfd hfd (hobj.trans hfiles) (fun _ => ?_) fun h =>
        absurd h (by decide), .inl ⟨rfl, rfl⟩⟩
      change (files fd).map _ = _
      rw [hentry', hentry]
      rfl
    | failed errno => cases heff
    | opened fd blocks => cases heff
  · -- close_on_exec
    obtain ⟨rfl, rfl⟩ := List.cons.inj hcode
    cases a with
    | done =>
      obtain ⟨⟨rfl, rfl⟩, hobj, hentry'⟩ := FileTable.change_goes
        (f := fun entry => { entry with closeOnExec := true }) (fun _ => rfl)
        (Option.some.inj heff)
      refine ⟨.connected epfd fd 2 rfl hepfd hfd (hobj.trans hfiles) (fun _ => ?_) fun _ => ?_,
        .inl ⟨rfl, rfl⟩⟩
      · have hblock := hblock (by decide)
        change (files fd).map _ = _
        rw [hentry'] at *
        rw [hentry] at hblock ⊢
        exact hblock
      · change (files fd).map _ = _
        rw [hentry', hentry]
        rfl
    | failed errno => cases heff
    | opened fd blocks => cases heff
  · -- master_notify
    obtain ⟨rfl, rfl⟩ := List.cons.inj hcode
    cases a <;> cases heff
    refine ⟨.connected epfd fd 3 rfl hepfd hfd hfiles (fun _ => hblock (by decide)) fun _ =>
      hexec (by decide), .inr ?_⟩
    rw [if_pos (connected_status hepfd hfd hfiles)]
    rfl
  · -- single_server_service
    obtain ⟨rfl, rfl⟩ := List.cons.inj hcode
    cases a <;> cases heff
    exact ⟨.connected epfd fd 4 rfl hepfd hfd hfiles (fun _ => hblock (by decide)) fun _ =>
      hexec (by decide), .inr rfl⟩
  · -- close
    obtain ⟨rfl, rfl⟩ := List.cons.inj hcode
    cases a <;> cases heff
    refine ⟨.ready epfd (by simp [goes, readyCodes]) hepfd ?_, .inl ⟨rfl, rfl⟩⟩
    change FileTable.object (Function.update _ _ _) = q.polled epfd
    rw [FileTable.object_update, hfiles, Function.update_idem, Option.map_none, ← hfd,
      Function.update_eq_self]

theorem Placed.goes (h : q.Placed) (hq : q.Forked) (hi : q.code = i :: code)
    (heff : i.effect q.files a = some (.goes files next sent)) :
    (q.goes files (next ++ code)).Placed ∧
      (serverPhase q.code).Goes (serverPhase (next ++ code)) sent := by
  cases h with
  | spawning hcode hfiles hfresh => exact spawning_goes hq hi hcode hfiles hfresh heff
  | starting hcode hfiles => exact starting_goes hi hcode hfiles heff
  | ready epfd hcode hepfd hfiles => exact ready_goes hi hcode hepfd hfiles heff
  | connected epfd fd n hcode hepfd hfd hfiles hblock hexec =>
    exact connected_goes n hi hcode hepfd hfd hfiles hblock hexec heff

/-- The process does not come back. -/
theorem Placed.dead (h : q.Placed) (alive : Bool) : { q with alive := alive }.Placed := by
  cases h with
  | spawning hcode hfiles hfresh => exact .spawning hcode hfiles hfresh
  | starting hcode hfiles => exact .starting hcode hfiles
  | ready epfd hcode hepfd hfiles => exact .ready epfd hcode hepfd hfiles
  | connected epfd fd n hcode hepfd hfd hfiles hblock hexec =>
    exact .connected epfd fd n hcode hepfd hfd hfiles hblock hexec

/-- The process as the master's model of the children has it. -/
def child (q : ServerProc) : Child := ⟨q.pid, q.serv, q.pipe, serverPhase q.code, q.alive⟩

end ServerProc

/-- A child exits, does something that does not show, or takes the next step of its loop. -/
inductive Child.Does (c : Child) : Child → Option (BitVec 32) → Prop
  | exits : c.Does { c with alive := false } none
  | stays : c.Does c none
  | goes : c.Does { c with phase := c.phase.next.1 } c.phase.next.2

namespace ServerProc

variable {q q' : ServerProc} {a : ServerAnswer} {sent : Option (BitVec 32)}

theorem Forked.keeps (h : q.Forked) (hs : q'.statusFd = q.statusFd)
    (hl : q'.listenFd = q.listenFd) (hi : q'.inherited = q.inherited) : q'.Forked := by
  constructor <;> simp only [hs, hl, hi]
  exacts [h.write, h.listen, h.ends, h.read_ne, h.write_ne, h.fresh]

/-- A call of a process is a step of the child, or does not show. -/
theorem Ok.call (h : q.Ok) (hc : q.call a = some (q', sent)) :
    q'.Ok ∧ q.child.Does q'.child sent := by
  unfold ServerProc.call at hc
  cases hi : q.code with
  | nil =>
    rw [hi] at hc
    cases hc
  | cons i code =>
    rw [hi] at hc
    obtain ⟨eff, heff, hafter⟩ := Option.map_eq_some_iff.1 hc
    cases eff with
    | exits =>
      obtain ⟨rfl, rfl⟩ := Prod.mk.inj hafter
      exact ⟨⟨h.forked.keeps rfl rfl rfl, h.placed.dead false⟩, .exits⟩
    | goes files next sent =>
      obtain ⟨rfl, rfl⟩ := Prod.mk.inj hafter
      obtain ⟨hplaced, hgoes⟩ := h.placed.goes h.forked hi heff
      refine ⟨⟨h.forked.keeps rfl rfl rfl, hplaced⟩, ?_⟩
      rcases hgoes with ⟨hphase, rfl⟩ | hnext
      · have hsame : (q.goes files (next ++ code)).child = q.child := by
          simp only [child, ServerProc.goes, hphase]
        exact hsame ▸ .stays
      · have hphase : (q.goes files (next ++ code)).child =
            { q.child with phase := q.child.phase.next.1 } := by
          simp only [child, ServerProc.goes, hnext]
        have hsent : sent = q.child.phase.next.2 := by
          simp only [child, hnext]
        change q.child.Does (q.goes files (next ++ code)).child sent
        rw [hphase, hsent]
        exact .goes

end ServerProc

end Nowra
