import Nowra.Destroy
import Nowra.Outline

/-!
# Where the threads of a pool are

The code of `PoolCode` with a proof outline : a place says where a thread is in `thpool.c`, which
mutexes it has, and whether it is in the middle of a queue operation (`Place`). What a step does
is told by the place before it (`PoolMove`, `poolExec_move`).

A mutex is owned by the thread at whose place it is held (`Placed`), so that no two threads have
it. Hence the steps that share data exclude each other, but for the loops that poll
`num_threads_alive` and the tests of the flag.
-/

namespace Nowra

/-- Where the caller of `thpool_init` and `thpool_destroy` is. -/
inductive CallerPc
  /-- In the loop at the end of `thpool_init`. -/
  | making
  | live
  /-- At a test of `num_threads_alive` in `thpool_destroy`. -/
  | poll
  /-- In `thpool_bsem_post_all`. -/
  | post
  /-- In `thpool_jobqueue_clear`. -/
  | clearing
  /-- After `thpool_jobqueue_clear`. -/
  | freed
  deriving DecidableEq

inductive PoolPc
  | worker (pc : ThreadPc)
  | caller (pc : CallerPc)
  deriving DecidableEq

/-- What a thread is in the middle of. -/
inductive Task
  | idle
  /-- The loop of `thpool_bsem_wait` has ended. -/
  | woken
  /-- In `thpool_add_work` with the job allocated. -/
  | adding (newjob : ℕ)
  /-- In `thpool_jobqueue_push` before the post. -/
  | put (newjob : ℕ)
  /-- In `thpool_jobqueue_pull` before the post. -/
  | took (jobP : Node)
  deriving DecidableEq

/-- The mutex that keeps the others out of it. -/
def Task.guard : Task → Option PoolMutex
  | .idle | .adding _ => none
  | .woken => some .semMutex
  | .put _ | .took _ => some .rwmutex

/-- Where a thread is. -/
structure Place where
  pc : PoolPc
  /-- The mutexes it has, the last taken first. -/
  held : List PoolMutex
  task : Task

/-! ## The outline -/

/-- What each step of the code does to the place of its thread. -/
inductive PoolInstr.Ok : PoolInstr → Place → Place → Prop
  | readRecord {q : Place} : Ok .readRecord q q
  | readSem {q : Place} : Ok .readSem q q
  /-- A second mutex is only ever the one of the semaphore, after that of the queue. -/
  | lock {mutex : PoolMutex} {pc : PoolPc} {held : List PoolMutex} {task : Task}
      (h : held = [] ∨ mutex = .semMutex ∧ held = [.rwmutex]) :
      Ok (.lock mutex) ⟨pc, held, task⟩ ⟨pc, mutex :: held, task⟩
  | unlock {mutex : PoolMutex} {pc : PoolPc} {held : List PoolMutex} {task : Task}
      (h : task.guard ≠ some mutex) :
      Ok (.unlock mutex) ⟨pc, mutex :: held, task⟩ ⟨pc, held, task⟩
  | aliveInc : Ok .aliveInc ⟨.worker .start, [.thcountLock], .idle⟩
      ⟨.worker .loop, [.thcountLock], .idle⟩
  | aliveDec : Ok .aliveDec ⟨.worker .leave, [.thcountLock], .idle⟩
      ⟨.worker .exited, [.thcountLock], .idle⟩
  | workingInc : Ok .workingInc ⟨.worker .count, [.thcountLock], .idle⟩
      ⟨.worker .pull, [.thcountLock], .idle⟩
  | workingDec : Ok .workingDec ⟨.worker .uncount, [.thcountLock], .idle⟩
      ⟨.worker .loop, [.thcountLock], .idle⟩
  | whileKeepalive : Ok .whileKeepalive ⟨.worker .loop, [], .idle⟩ ⟨.worker .exited, [], .idle⟩
  | ifKeepalive : Ok .ifKeepalive ⟨.worker .check, [], .idle⟩ ⟨.worker .loop, [], .idle⟩
  | whileV : Ok .whileV ⟨.worker .wait, [.semMutex], .idle⟩ ⟨.worker .wait, [.semMutex], .woken⟩
  | take : Ok (.setV 0) ⟨.worker .wait, [.semMutex], .woken⟩ ⟨.worker .check, [.semMutex], .idle⟩
  | postTook {jobP : Node} : Ok (.setV 1)
      ⟨.worker .pull, [.semMutex, .rwmutex], .took jobP⟩
      ⟨.worker (.run jobP), [.semMutex, .rwmutex], .idle⟩
  | postPut {pc : PoolPc} {newjob : ℕ} : Ok (.setV 1)
      ⟨pc, [.semMutex, .rwmutex], .put newjob⟩ ⟨pc, [.semMutex, .rwmutex], .idle⟩
  | postAll : Ok (.setV 1) ⟨.caller .post, [.semMutex], .idle⟩ ⟨.caller .poll, [.semMutex], .idle⟩
  | postClear : Ok (.setV 1) ⟨.caller .clearing, [.semMutex], .idle⟩
      ⟨.caller .clearing, [.semMutex], .idle⟩
  | pull : Ok .pull ⟨.worker .pull, [.rwmutex], .idle⟩ ⟨.worker .loop, [], .idle⟩
  | run {jobP : Node} : Ok (.run jobP) ⟨.worker (.run jobP), [], .idle⟩
      ⟨.worker (.free jobP), [], .idle⟩
  | freeJob {jobP : Node} : Ok (.freeJob jobP) ⟨.worker (.free jobP), [], .idle⟩
      ⟨.worker .uncount, [], .idle⟩
  | push {pc : PoolPc} {newjob : ℕ} : Ok (.push newjob) ⟨pc, [.rwmutex], .adding newjob⟩
      ⟨pc, [.rwmutex], .put newjob⟩
  | whileAliveNot : Ok .whileAliveNot ⟨.caller .making, [], .idle⟩ ⟨.caller .live, [], .idle⟩
  | client : Ok .client ⟨.caller .live, [], .idle⟩ ⟨.caller .freed, [], .idle⟩
  | waitLen {timed : Bool} : Ok (.waitLen timed) ⟨.caller .live, [], .idle⟩
      ⟨.caller .live, [], .idle⟩
  | waitWorking {timed : Bool} : Ok (.waitWorking timed) ⟨.caller .live, [], .idle⟩
      ⟨.caller .live, [], .idle⟩
  | readTotal : Ok .readTotal ⟨.caller .live, [], .idle⟩ ⟨.caller .live, [], .idle⟩
  | clearKeepalive : Ok .clearKeepalive ⟨.caller .live, [], .idle⟩ ⟨.caller .poll, [], .idle⟩
  | whileTimed : Ok .whileTimed ⟨.caller .poll, [], .idle⟩ ⟨.caller .poll, [], .idle⟩
  | whileAlive : Ok .whileAlive ⟨.caller .poll, [], .idle⟩ ⟨.caller .clearing, [], .idle⟩
  | whileLen : Ok .whileLen ⟨.caller .clearing, [], .idle⟩ ⟨.caller .clearing, [], .idle⟩
  | clearPull : Ok .clearPull ⟨.caller .clearing, [], .idle⟩ ⟨.caller .clearing, [], .idle⟩
  | clearFree {jobP : Node} : Ok (.freeJob jobP) ⟨.caller .clearing, [], .idle⟩
      ⟨.caller .clearing, [], .idle⟩
  | resetSem : Ok .resetSem ⟨.caller .clearing, [], .idle⟩ ⟨.caller .clearing, [], .idle⟩
  | clearLen : Ok .clearLen ⟨.caller .clearing, [], .idle⟩ ⟨.caller .freed, [], .idle⟩
  | freeBlock {block : PoolBlock} : Ok (.freeBlock block) ⟨.caller .freed, [], .idle⟩
      ⟨.caller .freed, [], .idle⟩
  | freeThreads {k : ℕ} : Ok (.freeThreads k) ⟨.caller .freed, [], .idle⟩
      ⟨.caller .freed, [], .idle⟩

/-- The code leads from one place to another. -/
abbrev PoolOutline : List PoolInstr → Place → Place → Prop := Outline PoolInstr.Ok

/-- The place of a thread that has returned. -/
def lastPlace {n : ℕ} (t : Option (Fin n)) : Place :=
  ⟨t.elim (.caller .freed) fun _ => .worker .exited, [], .idle⟩

theorem outline_threadDoCode : PoolOutline threadDoCode ⟨.worker .start, [], .idle⟩
    ⟨.worker .exited, [], .idle⟩ :=
  .cons .readRecord <| .cons (.lock (.inl rfl)) <| .cons .aliveInc <|
    .cons (.unlock (by simp [Task.guard])) <| .single .whileKeepalive

theorem outline_bsemWaitCode : PoolOutline bsemWaitCode ⟨.worker .wait, [], .idle⟩
    ⟨.worker .check, [], .idle⟩ :=
  .cons .readSem <| .cons (.lock (.inl rfl)) <| .cons .whileV <| .cons .take <|
    .single (.unlock (by simp [Task.guard]))

/-- A post, of whatever its `setV` does. -/
theorem outline_bsemPostCode {pc pc' : PoolPc} {held : List PoolMutex} {task task' : Task}
    (hheld : held = [] ∨ held = [.rwmutex])
    (h : PoolInstr.Ok (.setV 1) ⟨pc, .semMutex :: held, task⟩ ⟨pc', .semMutex :: held, task'⟩)
    (htask : task'.guard ≠ some .semMutex) :
    PoolOutline bsemPostCode ⟨pc, held, task⟩ ⟨pc', held, task'⟩ :=
  .cons .readSem <| .cons (.lock (hheld.imp_right fun h => ⟨rfl, h⟩)) <| .cons h <|
    .single (.unlock htask)

theorem outline_threadWorkCode : PoolOutline threadWorkCode ⟨.worker .count, [], .idle⟩
    ⟨.worker .loop, [], .idle⟩ :=
  .cons (.lock (.inl rfl)) <| .cons .workingInc <| .cons (.unlock (by simp [Task.guard])) <|
    .cons (.lock (.inl rfl)) <| .single .pull

theorem outline_threadJobCode (jobP : Node) : PoolOutline (threadJobCode jobP)
    ⟨.worker (.run jobP), [.rwmutex], .idle⟩ ⟨.worker .loop, [], .idle⟩ :=
  .cons (.unlock (by simp [Task.guard])) <| .cons .run <| .cons .freeJob <|
    .cons (.lock (.inl rfl)) <| .cons .workingDec <| .single (.unlock (by simp [Task.guard]))

theorem outline_threadLeaveCode : PoolOutline threadLeaveCode ⟨.worker .leave, [], .idle⟩
    ⟨.worker .exited, [], .idle⟩ :=
  .cons (.lock (.inl rfl)) <| .cons .aliveDec <| .single (.unlock (by simp [Task.guard]))

theorem outline_addWorkCode (pc : PoolPc) (newjob : ℕ) : PoolOutline (addWorkCode newjob)
    ⟨pc, [], .adding newjob⟩ ⟨pc, [], .idle⟩ :=
  .cons (.lock (.inl rfl)) <| .cons .push <|
    (outline_bsemPostCode (.inr rfl) .postPut (by simp [Task.guard])).append <|
      .single (.unlock (by simp [Task.guard]))

theorem outline_waitCode : PoolOutline waitCode ⟨.caller .live, [], .idle⟩
    ⟨.caller .live, [], .idle⟩ :=
  .cons .waitLen <| .cons .waitLen <| .single .waitLen

theorem outline_destroyCode : PoolOutline destroyCode ⟨.caller .live, [], .idle⟩
    ⟨.caller .freed, [], .idle⟩ :=
  .cons .readTotal <| .cons .clearKeepalive <| .cons .whileTimed <| .cons .whileAlive <|
    .cons .whileLen <| .cons .resetSem <| .cons .clearLen <| .cons .freeBlock <|
      .cons .freeBlock <| .cons .freeThreads <| .cons .freeBlock <| .single .freeBlock

/-! ## What a step does -/

variable {n : ℕ} {J : Type}

/-- What a step of thread `t` does to the memory and to its place. -/
inductive PoolMove (t : Option (Fin n)) (m : PoolMem n J) : Place → PoolMem n J → Place → Prop
  /-- A read that leaves the thread where it is. -/
  | read {q : Place} : PoolMove t m q m q
  | lock {mutex : PoolMutex} {pc : PoolPc} {held : List PoolMutex} {task : Task}
      (h : m.owner mutex = none) :
      PoolMove t m ⟨pc, held, task⟩ (m.setOwner mutex (some t)) ⟨pc, mutex :: held, task⟩
  | unlock {mutex : PoolMutex} {pc : PoolPc} {held : List PoolMutex} {task : Task}
      (h : task.guard ≠ some mutex) :
      PoolMove t m ⟨pc, mutex :: held, task⟩ (m.setOwner mutex none) ⟨pc, held, task⟩
  | aliveInc : PoolMove t m ⟨.worker .start, [.thcountLock], .idle⟩
      { m with tp := { m.tp with numThreadsAlive := m.tp.numThreadsAlive + 1 } }
      ⟨.worker .loop, [.thcountLock], .idle⟩
  | aliveDec : PoolMove t m ⟨.worker .leave, [.thcountLock], .idle⟩
      { m with tp := { m.tp with numThreadsAlive := m.tp.numThreadsAlive - 1 } }
      ⟨.worker .exited, [.thcountLock], .idle⟩
  | workingInc : PoolMove t m ⟨.worker .count, [.thcountLock], .idle⟩
      { m with tp := { m.tp with numThreadsWorking := m.tp.numThreadsWorking + 1 } }
      ⟨.worker .pull, [.thcountLock], .idle⟩
  | workingDec : PoolMove t m ⟨.worker .uncount, [.thcountLock], .idle⟩
      { m with tp := { m.tp with numThreadsWorking := m.tp.numThreadsWorking - 1 } }
      ⟨.worker .loop, [.thcountLock], .idle⟩
  | loop : PoolMove t m ⟨.worker .loop, [], .idle⟩ m
      ⟨.worker (if m.keepalive then .wait else .leave), [], .idle⟩
  | check : PoolMove t m ⟨.worker .check, [], .idle⟩ m
      ⟨.worker (if m.keepalive then .count else .loop), [], .idle⟩
  | woken (hv : m.tp.v = 1) : PoolMove t m ⟨.worker .wait, [.semMutex], .idle⟩ m
      ⟨.worker .wait, [.semMutex], .woken⟩
  | sleep : PoolMove t m ⟨.worker .wait, [.semMutex], .idle⟩ (m.setOwner .semMutex none)
      ⟨.worker .wait, [], .idle⟩
  | take : PoolMove t m ⟨.worker .wait, [.semMutex], .woken⟩ { m with tp := { m.tp with v := 0 } }
      ⟨.worker .check, [.semMutex], .idle⟩
  | pull {jobP : Node} {tp : Thpool J} (h : jobqueueTake m.tp = some (jobP, false, tp)) :
      PoolMove t m ⟨.worker .pull, [.rwmutex], .idle⟩ { m with tp := tp }
        ⟨.worker (.run jobP), [.rwmutex], .idle⟩
  | pullPost {jobP : Node} {tp : Thpool J} (h : jobqueueTake m.tp = some (jobP, true, tp)) :
      PoolMove t m ⟨.worker .pull, [.rwmutex], .idle⟩ { m with tp := tp }
        ⟨.worker .pull, [.rwmutex], .took jobP⟩
  | postTook {jobP : Node} : PoolMove t m ⟨.worker .pull, [.semMutex, .rwmutex], .took jobP⟩
      { m with tp := { m.tp with v := 1 } } ⟨.worker (.run jobP), [.semMutex, .rwmutex], .idle⟩
  | run {jobP : Node} (h : (m.tp.mem jobP).isSome) :
      PoolMove t m ⟨.worker (.run jobP), [], .idle⟩ m ⟨.worker (.free jobP), [], .idle⟩
  | freeJob {id : ℕ} : PoolMove t m ⟨.worker (.free (.job id)), [], .idle⟩
      { m with
        tp := { m.tp with mem := Function.update m.tp.mem (.job id) none }
        freedJobs := m.freedJobs ++ [id] }
      ⟨.worker .uncount, [], .idle⟩
  | newJob {pc : PoolPc} (job : J)
      (h : pc = .caller .live ∨ ∃ jobP, pc = .worker (.run jobP)) :
      PoolMove t m ⟨pc, [], .idle⟩ (m.newJob job) ⟨pc, [], .adding m.tp.nextJob⟩
  | push {pc : PoolPc} {newjob : ℕ} {tp : Thpool J} (h : jobqueuePut m.tp newjob = some tp) :
      PoolMove t m ⟨pc, [.rwmutex], .adding newjob⟩ { m with tp := tp }
        ⟨pc, [.rwmutex], .put newjob⟩
  | postPut {pc : PoolPc} {newjob : ℕ} :
      PoolMove t m ⟨pc, [.semMutex, .rwmutex], .put newjob⟩ { m with tp := { m.tp with v := 1 } }
        ⟨pc, [.semMutex, .rwmutex], .idle⟩
  | made (h : m.tp.numThreadsAlive = n) :
      PoolMove t m ⟨.caller .making, [], .idle⟩ m ⟨.caller .live, [], .idle⟩
  | readTotal : PoolMove t m ⟨.caller .live, [], .idle⟩
      { m with threadsTotal := m.tp.numThreadsAlive } ⟨.caller .live, [], .idle⟩
  | clearKeepalive : PoolMove t m ⟨.caller .live, [], .idle⟩ { m with keepalive := false }
      ⟨.caller .poll, [], .idle⟩
  | poll (h : m.tp.numThreadsAlive ≠ 0) :
      PoolMove t m ⟨.caller .poll, [], .idle⟩ m ⟨.caller .post, [], .idle⟩
  | postAll : PoolMove t m ⟨.caller .post, [.semMutex], .idle⟩
      { m with tp := { m.tp with v := 1 } } ⟨.caller .poll, [.semMutex], .idle⟩
  | noneAlive (h : m.tp.numThreadsAlive = 0) :
      PoolMove t m ⟨.caller .poll, [], .idle⟩ m ⟨.caller .clearing, [], .idle⟩
  | clearPull {jobP : Node} {post : Bool} {tp : Thpool J}
      (h : jobqueueTake m.tp = some (jobP, post, tp)) :
      PoolMove t m ⟨.caller .clearing, [], .idle⟩ { m with tp := tp } ⟨.caller .clearing, [], .idle⟩
  | clearPost : PoolMove t m ⟨.caller .clearing, [.semMutex], .idle⟩
      { m with tp := { m.tp with v := 1 } } ⟨.caller .clearing, [.semMutex], .idle⟩
  | clearFree {id : ℕ} : PoolMove t m ⟨.caller .clearing, [], .idle⟩
      { m with
        tp := { m.tp with mem := Function.update m.tp.mem (.job id) none }
        freedJobs := m.freedJobs ++ [id] }
      ⟨.caller .clearing, [], .idle⟩
  | resetSem : PoolMove t m ⟨.caller .clearing, [], .idle⟩
      { m.setOwner .semMutex none with tp := { m.tp with v := 0 } } ⟨.caller .clearing, [], .idle⟩
  | clearLen : PoolMove t m ⟨.caller .clearing, [], .idle⟩
      { m with tp := { m.tp with len := 0 } } ⟨.caller .freed, [], .idle⟩
  | freeBlock {block : PoolBlock} : PoolMove t m ⟨.caller .freed, [], .idle⟩
      { m with freed := m.freed ++ [block] } ⟨.caller .freed, [], .idle⟩

/-- The callback of the job has returned. -/
def Place.Finishes (q q' : Place) (jobP : Node) : Prop :=
  q.pc = .worker (.run jobP) ∧ q'.pc = .worker (.free jobP)

variable {t : Option (Fin n)} {choice : PoolChoice J} {i : PoolInstr} {m m' : PoolMem n J}
  {new : List PoolInstr} {q q₁ : Place}

/-- What a worker's pull is replaced by. -/
theorem poolNext_pull (h : poolNext t .pull m = some (m', new)) :
    ∃ q', PoolOutline new q' ⟨.worker .loop, [], .idle⟩ ∧
      PoolMove t m ⟨.worker .pull, [.rwmutex], .idle⟩ m' q' := by
  obtain ⟨⟨jobP, post, tp⟩, hr, he⟩ := Option.map_eq_some_iff.1 h
  cases he
  cases post with
  | false => exact ⟨_, outline_threadJobCode jobP, .pull hr⟩
  | true =>
    exact ⟨_, (outline_bsemPostCode (.inr rfl) .postTook (by simp [Task.guard])).append
      (outline_threadJobCode jobP), .pullPost hr⟩

/-- What a pull of the caller is replaced by. -/
theorem poolNext_clearPull (h : poolNext t .clearPull m = some (m', new)) :
    ∃ q', PoolOutline new q' ⟨.caller .clearing, [], .idle⟩ ∧
      PoolMove t m ⟨.caller .clearing, [], .idle⟩ m' q' := by
  obtain ⟨⟨jobP, post, tp⟩, hr, he⟩ := Option.map_eq_some_iff.1 h
  cases he
  refine ⟨_, ?_, .clearPull hr⟩
  cases post with
  | false => exact .single .clearFree
  | true =>
    exact (outline_bsemPostCode (.inl rfl) .postClear (by simp [Task.guard])).append
      (.single .clearFree)

/-- A poll of the number of threads alive, with what is done while there are some. -/
theorem outline_poll {j : PoolInstr} (hj : j.Ok ⟨.caller .poll, [], .idle⟩ q₁) :
    PoolOutline (bsemPostCode ++ [j]) ⟨.caller .post, [], .idle⟩ q₁ :=
  (outline_bsemPostCode (.inl rfl) .postAll (by simp [Task.guard])).append (.single hj)

/-- Every step does what its place allows, and is replaced by code that leads on. -/
theorem poolExec_move (hok : i.Ok q q₁) (h : poolExec t choice i m = some (m', new)) :
    ∃ q', PoolOutline new q' q₁ ∧ PoolMove t m q m' q' := by
  cases hok
  case run jobP =>
    rcases poolExec_cases h with hnext | ⟨job, hadd⟩ | ⟨hidle, -⟩
    · simp only [poolNext] at hnext
      split at hnext <;> cases hnext
      exact ⟨_, .nil, .run ‹_›⟩
    · obtain ⟨-, rfl, rfl⟩ := poolAddWork_cases hadd
      exact ⟨_, (outline_addWorkCode _ _).append (.single .run), .newJob job (.inr ⟨jobP, rfl⟩)⟩
    · cases hidle
  case client =>
    rcases poolExec_cases h with hnext | ⟨job, hadd⟩ | ⟨hidle, rfl⟩
    · cases hnext
      exact ⟨_, outline_destroyCode, .read⟩
    · obtain ⟨-, rfl, rfl⟩ := poolAddWork_cases hadd
      exact ⟨_, (outline_addWorkCode _ _).append (.single .client), .newJob job (.inl rfl)⟩
    · cases hidle
      exact ⟨_, outline_waitCode.append (.single .client), .read⟩
  case waitLen =>
    rcases poolExec_cases h with hnext | ⟨job, hadd⟩ | ⟨hidle, rfl⟩
    · cases hnext
      refine ⟨_, ?_, .read⟩
      split
      · exact .single .waitLen
      · exact .single .waitWorking
    · cases hadd
    · cases hidle
      exact ⟨_, .nil, .read⟩
  case whileTimed =>
    rcases poolExec_cases h with hnext | ⟨job, hadd⟩ | ⟨hidle, rfl⟩
    · cases hnext
      split
      · exact ⟨_, outline_poll .whileTimed, .poll ‹_›⟩
      · exact ⟨_, .nil, .read⟩
    · cases hadd
    · cases hidle
      exact ⟨_, .nil, .read⟩
  all_goals have hnext := poolExec_certain h trivial
  case pull => exact poolNext_pull hnext
  case clearPull => exact poolNext_clearPull hnext
  case lock =>
    simp only [poolNext] at hnext
    split at hnext <;> cases hnext
    exact ⟨_, .nil, .lock ‹_›⟩
  case unlock hguard =>
    simp only [poolNext] at hnext
    split at hnext <;> cases hnext
    exact ⟨_, .nil, .unlock hguard⟩
  case whileKeepalive =>
    cases hnext
    refine ⟨_, ?_, .loop⟩
    split
    · exact outline_bsemWaitCode.append (.cons .ifKeepalive (.single .whileKeepalive))
    · exact outline_threadLeaveCode
  case ifKeepalive =>
    cases hnext
    refine ⟨_, ?_, .check⟩
    split
    · exact outline_threadWorkCode
    · exact .nil
  case whileV =>
    simp only [poolNext] at hnext
    split at hnext <;> cases hnext
    · exact ⟨_, .nil, .woken ‹_›⟩
    · exact ⟨_, .cons (.lock (.inl rfl)) (.single .whileV), .sleep⟩
  case push =>
    obtain ⟨tp, hr, he⟩ := Option.map_eq_some_iff.1 hnext
    cases he
    exact ⟨_, .nil, .push hr⟩
  case freeJob jobP =>
    cases jobP <;> cases hnext
    exact ⟨_, .nil, .freeJob⟩
  case clearFree jobP =>
    cases jobP <;> cases hnext
    exact ⟨_, .nil, .clearFree⟩
  case whileAliveNot =>
    cases hnext
    split
    · exact ⟨_, .single .whileAliveNot, .read⟩
    · exact ⟨_, .nil, .made (not_not.1 ‹_›)⟩
  case whileAlive =>
    cases hnext
    split
    · exact ⟨_, outline_poll .whileAlive, .poll ‹_›⟩
    · exact ⟨_, .nil, .noneAlive (not_not.1 ‹_›)⟩
  case waitWorking =>
    cases hnext
    refine ⟨_, ?_, .read⟩
    split
    · exact .single .waitLen
    · exact .nil
  case whileLen =>
    cases hnext
    refine ⟨_, ?_, .read⟩
    split
    · exact .cons .clearPull (.single .whileLen)
    · exact .nil
  case freeThreads =>
    cases hnext
    refine ⟨_, ?_, .read⟩
    split
    · exact .cons .freeBlock (.single .freeThreads)
    · exact .nil
  all_goals
    cases hnext
    exact ⟨_, .nil, by constructor⟩

/-- A job ends with the step that runs it, unless the job adds another. -/
theorem finishes_iff {q' : Place} {jobP : Node} (hok : i.Ok q q₁)
    (h : poolExec t choice i m = some (m', new)) (hnew : PoolOutline new q' q₁)
    (hmove : PoolMove t m q m' q') : q.Finishes q' jobP ↔ i = .run jobP ∧ choice = .next := by
  constructor
  · rintro ⟨hq, hq'⟩
    cases hmove
    case run jobP' hjob =>
      obtain rfl : jobP' = jobP := by simpa using hq
      -- the other steps at this place leave the job running
      have hstay (hi : i.Certain) (hpc : q₁.pc = .worker (.run jobP'))
          (hnil : poolNext t i m = some (m, new) → new = []) : False := by
        obtain rfl := hnil (poolExec_certain h hi)
        rw [← hnew.of_nil] at hpc
        cases hpc
      cases hok with
      | readRecord | readSem =>
        exact (hstay trivial rfl fun he => (Prod.mk.inj (Option.some.inj he)).2.symm).elim
      | lock =>
        refine (hstay trivial rfl fun he => ?_).elim
        simp only [poolNext] at he
        split at he
        · exact (Prod.mk.inj (Option.some.inj he)).2.symm
        · cases he
      | run =>
        refine ⟨rfl, ?_⟩
        cases choice with
        | next => rfl
        | addWork job =>
          have hm := (poolAddWork_cases
            (show poolAddWork job (.run jobP') m = some (m, new) from h)).2.1
          have hnext := congrArg (fun m => m.tp.nextJob) hm
          simp [PoolMem.newJob] at hnext
        | wait | timeout => cases h
    all_goals first
      | exact absurd (hq.symm.trans hq') (by simp)
      | (split at hq' <;> cases hq')
      | simp at hq
  · rintro ⟨rfl, rfl⟩
    simp only [poolExec, poolNext] at h
    split at h <;> cases h
    cases hok
    rw [hnew.of_nil]
    exact ⟨rfl, rfl⟩

/-! ## The mutexes -/

theorem jobqueueTake_v {tp tp' : Thpool J} {jobP : Node} {post : Bool}
    (h : jobqueueTake tp = some (jobP, post, tp')) :
    tp'.v = tp.v ∧ tp'.numThreadsWorking = tp.numThreadsWorking := by
  obtain ⟨x, -, h⟩ := Option.bind_eq_some_iff.1 h
  obtain ⟨ring, -, h⟩ := Option.bind_eq_some_iff.1 h
  obtain ⟨-, hr⟩ := Prod.mk.inj (Option.some.inj h)
  dsimp only at hr
  split at hr <;> cases hr <;> exact ⟨rfl, rfl⟩

theorem jobqueuePut_v {tp tp' : Thpool J} {id : ℕ} (h : jobqueuePut tp id = some tp') :
    tp'.v = tp.v ∧ tp'.numThreadsWorking = tp.numThreadsWorking := by
  obtain ⟨ring, -, h⟩ := Option.bind_eq_some_iff.1 h
  cases h
  exact ⟨rfl, rfl⟩

@[simp] theorem PoolMem.setOwner_owner_self (m : PoolMem n J) (mutex : PoolMutex)
    (owner : Option (Option (Fin n))) : (m.setOwner mutex owner).owner mutex = owner :=
  Function.update_self ..

@[simp] theorem PoolMem.setOwner_owner_of_ne (m : PoolMem n J) {mutex mutex' : PoolMutex}
    (h : mutex' ≠ mutex) (owner : Option (Option (Fin n))) :
    (m.setOwner mutex owner).owner mutex' = m.owner mutex' :=
  Function.update_of_ne h ..

/-- The places agree with the owners of the mutexes and with the value of the semaphore. -/
structure PlacesOk (m : PoolMem n J) (place : Option (Fin n) → Place) : Prop where
  owner : ∀ mutex u, m.owner mutex = some u ↔ mutex ∈ (place u).held
  nodup : ∀ u, (place u).held.Nodup
  guarded : ∀ u mutex, (place u).task.guard = some mutex → mutex ∈ (place u).held
  woken : ∀ u, (place u).task = .woken → m.tp.v = 1

variable {place : Option (Fin n) → Place} {q' : Place}

/-- A mutex is held by one thread at most. -/
theorem PlacesOk.eq_of_held (h : PlacesOk m place) {mutex : PoolMutex} {u : Option (Fin n)}
    (ht : mutex ∈ (place t).held) (hu : mutex ∈ (place u).held) : t = u :=
  Option.some.inj (((h.owner mutex t).2 ht).symm.trans ((h.owner mutex u).2 hu))

/-- A change of place without a mutex taken or released. -/
theorem PlacesOk.same (h : PlacesOk m place) (howner : m'.owner = m.owner)
    (hheld : q'.held = (place t).held)
    (hguard : ∀ mutex, q'.task.guard = some mutex → mutex ∈ q'.held)
    (hv : m'.tp.v = m.tp.v ∨ m'.tp.v = 1 ∨ .semMutex ∈ (place t).held)
    (hwoken : q'.task = .woken → m'.tp.v = 1) : PlacesOk m' (Function.update place t q') where
  owner mutex := by
    refine (Function.forall_update_iff place fun u q => m'.owner mutex = some u ↔ mutex ∈ q.held).2
      ⟨?_, fun u _ => ?_⟩
    · rw [howner, hheld]
      exact h.owner mutex t
    · rw [howner]
      exact h.owner mutex u
  nodup := (Function.forall_update_iff place fun _ q => q.held.Nodup).2
    ⟨hheld ▸ h.nodup t, fun u _ => h.nodup u⟩
  guarded := (Function.forall_update_iff place fun _ q =>
    ∀ mutex, q.task.guard = some mutex → mutex ∈ q.held).2 ⟨hguard, fun u _ => h.guarded u⟩
  woken := by
    refine (Function.forall_update_iff place fun _ q => q.task = .woken → m'.tp.v = 1).2
      ⟨hwoken, fun u hu htask => ?_⟩
    rcases hv with hv | hv | hsem
    · exact hv.trans (h.woken u htask)
    · exact hv
    -- whoever is woken has the semaphore's mutex, so it is not `t` that writes the value
    · exact absurd (h.eq_of_held (h.guarded u _ (by rw [htask]; rfl)) hsem) hu

/-- A mutex is taken that nobody has. -/
theorem PlacesOk.lock (h : PlacesOk m place) {mutex : PoolMutex} {pc : PoolPc}
    (hm : m.owner mutex = none) :
    PlacesOk (m.setOwner mutex (some t)) (Function.update place t
      ⟨pc, mutex :: (place t).held, (place t).task⟩) where
  owner mutex' := by
    have hnot (u : Option (Fin n)) : mutex ∉ (place u).held := fun hu => by
      cases hm.symm.trans ((h.owner mutex u).2 hu)
    refine (Function.forall_update_iff place fun u q =>
      (m.setOwner mutex (some t)).owner mutex' = some u ↔ mutex' ∈ q.held).2 ⟨?_, fun u hu => ?_⟩
    · by_cases he : mutex' = mutex
      · simp [he]
      · simp [he, h.owner]
    · by_cases he : mutex' = mutex
      · simp [he, Ne.symm hu, hnot u]
      · simp [he, h.owner]
  nodup := by
    refine (Function.forall_update_iff place fun _ q => q.held.Nodup).2
      ⟨List.nodup_cons.2 ⟨fun ht => ?_, h.nodup t⟩, fun u _ => h.nodup u⟩
    cases hm.symm.trans ((h.owner mutex t).2 ht)
  guarded := (Function.forall_update_iff place fun _ q =>
    ∀ mutex, q.task.guard = some mutex → mutex ∈ q.held).2
      ⟨fun mutex' hg => List.mem_cons_of_mem _ (h.guarded t mutex' hg), fun u _ => h.guarded u⟩
  woken := (Function.forall_update_iff place fun _ q => q.task = .woken → m.tp.v = 1).2
    ⟨h.woken t, fun u _ => h.woken u⟩

/-- The mutex taken last is released. -/
theorem PlacesOk.unlock (h : PlacesOk m place) {mutex : PoolMutex} {pc : PoolPc}
    {held : List PoolMutex} (hheld : (place t).held = mutex :: held)
    (hg : (place t).task.guard ≠ some mutex) :
    PlacesOk (m.setOwner mutex none) (Function.update place t ⟨pc, held, (place t).task⟩) where
  owner mutex' := by
    have hnodup := List.nodup_cons.1 (hheld ▸ h.nodup t)
    refine (Function.forall_update_iff place fun u q =>
      (m.setOwner mutex none).owner mutex' = some u ↔ mutex' ∈ q.held).2 ⟨?_, fun u hu => ?_⟩
    · by_cases he : mutex' = mutex
      · simp [he, hnodup.1]
      · simp [he, h.owner, hheld]
    · by_cases he : mutex' = mutex
      · subst he
        simp only [PoolMem.setOwner_owner_self, reduceCtorEq, false_iff]
        exact fun hmem => hu (h.eq_of_held hmem (by rw [hheld]; exact List.mem_cons_self))
      · simp [he, h.owner]
  nodup := (Function.forall_update_iff place fun _ q => q.held.Nodup).2
    ⟨(List.nodup_cons.1 (hheld ▸ h.nodup t)).2, fun u _ => h.nodup u⟩
  guarded := by
    refine (Function.forall_update_iff place fun _ q =>
      ∀ mutex, q.task.guard = some mutex → mutex ∈ q.held).2 ⟨fun mutex' hg' => ?_,
        fun u _ => h.guarded u⟩
    have hmem := h.guarded t mutex' hg'
    rw [hheld] at hmem
    refine (List.mem_cons.1 hmem).resolve_left fun he => hg ?_
    rw [← he]
    exact hg'
  woken := (Function.forall_update_iff place fun _ q => q.task = .woken → m.tp.v = 1).2
    ⟨h.woken t, fun u _ => h.woken u⟩

/-- The semaphore is made anew while nobody has its mutex. -/
theorem PlacesOk.resetSem (h : PlacesOk m place) (hsem : ∀ u, .semMutex ∉ (place u).held) :
    PlacesOk { m.setOwner .semMutex none with tp := { m.tp with v := 0 } } place where
  owner mutex u := by
    change (m.setOwner .semMutex none).owner mutex = some u ↔ _
    by_cases he : mutex = .semMutex
    · simp [he, hsem u]
    · simp [he, h.owner]
  nodup := h.nodup
  guarded := h.guarded
  woken u htask := absurd (h.guarded u .semMutex (by rw [htask]; rfl)) (hsem u)

/-- A step keeps the places with the owners. The semaphore is only made anew when nobody has its
mutex. -/
theorem PlacesOk.move (h : PlacesOk m place) (hmove : PoolMove t m (place t) m' q')
    (hsem : (place t).pc = .caller .clearing → ∀ u, u ≠ t → .semMutex ∉ (place u).held) :
    PlacesOk m' (Function.update place t q') := by
  generalize hq : place t = q at hmove hsem
  cases hmove with
  | read =>
    rw [← hq, Function.update_eq_self]
    exact h
  | @lock mutex pc held task hm =>
    have hl : PlacesOk (m.setOwner mutex (some t)) (Function.update place t
        ⟨pc, mutex :: (place t).held, (place t).task⟩) := h.lock hm
    rwa [hq] at hl
  | @unlock mutex pc held task hg =>
    have hu : PlacesOk (m.setOwner mutex none) (Function.update place t
        ⟨pc, held, (place t).task⟩) := h.unlock (by rw [hq]) (by rw [hq]; exact hg)
    rwa [hq] at hu
  | sleep =>
    have hu : PlacesOk (m.setOwner .semMutex none) (Function.update place t
        ⟨.worker .wait, [], (place t).task⟩) :=
      h.unlock (by rw [hq]) (by rw [hq]; simp [Task.guard])
    rwa [hq] at hu
  | resetSem =>
    rw [← hq, Function.update_eq_self]
    refine h.resetSem fun u => ?_
    by_cases hu : u = t
    · rw [hu, hq]
      simp
    · exact hsem rfl u hu
  | pull hr | pullPost hr | clearPull hr =>
    exact h.same rfl (by rw [hq]) (by simp [Task.guard]) (.inl (jobqueueTake_v hr).1) (by simp)
  | push hr =>
    exact h.same rfl (by rw [hq]) (by simp [Task.guard]) (.inl (jobqueuePut_v hr).1) (by simp)
  | woken hv =>
    exact h.same rfl (by rw [hq]) (by simp [Task.guard]) (.inl rfl) fun _ => hv
  | take =>
    exact h.same rfl (by rw [hq]) (by simp [Task.guard]) (.inr (.inr (by simp [hq])))
      (by simp)
  | postTook | postPut | postAll | clearPost =>
    exact h.same rfl (by rw [hq]) (by simp [Task.guard]) (.inr (.inl rfl)) (by simp)
  | _ =>
    exact h.same rfl (by rw [hq]) (by simp [Task.guard]) (.inl rfl) (by simp)

/-! ## The whole pool -/

/-- The kind of thread a place is one of. -/
def PoolPc.isCaller : PoolPc → Bool
  | .caller _ => true
  | .worker _ => false

theorem PoolInstr.Ok.isCaller (h : i.Ok q q₁) : q₁.pc.isCaller = q.pc.isCaller := by
  cases h <;> rfl

theorem isCaller_of_outline {code : List PoolInstr} (h : PoolOutline code q q₁) :
    q₁.pc.isCaller = q.pc.isCaller := by
  induction h with
  | nil => rfl
  | cons hi _ ih => exact ih.trans hi.isCaller

/-- The caller is in `thpool_jobqueue_clear` or past it. -/
def PoolPc.Clears (pc : PoolPc) : Prop :=
  pc = .caller .clearing ∨ pc = .caller .freed

/-- The steps of a post leave the caller in `thpool_jobqueue_clear`. -/
theorem clears_of_plain {code : List PoolInstr} (hcode : ∀ j ∈ code, j.Plain)
    (h : PoolOutline code q q₁) (hq : q.pc.Clears) : q₁.pc.Clears := by
  induction h with
  | nil => exact hq
  | @cons i code q q₁ q₂ hi _ ih =>
    refine ih (fun j hj => hcode j (List.mem_cons_of_mem _ hj)) ?_
    have hplain := hcode i (by simp)
    cases hi <;> first | exact hq | exact hplain.elim | simp [PoolPc.Clears] at hq

/-- A pool with its threads at their places. -/
structure Placed (s : PoolThreads n J) (place : Option (Fin n) → Place) : Prop where
  inv : DestroyInv s
  outlined : Outlined PoolInstr.Ok lastPlace s.code place
  ok : PlacesOk s.mem place
  /-- The head of the queue is not freed. -/
  free : ∀ u, (place u).pc ≠ .worker (.free .jobHead)

/-- A step to the free of what is no job. -/
theorem PoolMove.not_free {q' : Place} (h : PoolMove t m q m' q') (hm : m.tp.mem .jobHead = none)
    (hq : q.pc ≠ .worker (.free .jobHead)) : q'.pc ≠ .worker (.free .jobHead) := by
  cases h
  case run jobP hjob =>
    rintro ⟨rfl⟩
    simp [hm] at hjob
  case newJob hpc =>
    rcases hpc with rfl | ⟨jobP, rfl⟩ <;> simp
  all_goals first | exact hq | (split <;> simp) | simp

theorem placed_init : Placed (destroyInit n J) fun t => ⟨t.elim (.caller .making) fun _ =>
    .worker .start, [], .idle⟩ where
  inv := destroyInv_init
  outlined t := by
    cases t with
    | none => exact .cons .whileAliveNot (.single .client)
    | some w => exact outline_threadDoCode
  ok :=
    { owner := by simp [destroyInit]
      nodup := by simp
      guarded := by simp [Task.guard]
      woken := by simp }
  free u := by cases u <;> simp

variable {s s' : PoolThreads n J} {rest : List PoolInstr}

theorem Placed.isCaller (h : Placed s place) (t : Option (Fin n)) :
    (place t).pc.isCaller = t.isNone := by
  rw [← isCaller_of_outline (h.outlined t)]
  cases t <;> rfl

/-- While the caller clears the queue, the workers have left. -/
theorem Placed.left_of_clears (h : Placed s place) (hpc : (place none).pc.Clears) (w : Fin n) :
    Left (s.code (some w)) := by
  have hcode := h.outlined none
  -- code before the loop over the queue starts at other places
  have hbefore {pre code : List PoolInstr} {i : PoolInstr} (hpre : ∀ j ∈ pre, j.Plain)
      (hc : s.code none = pre ++ i :: code) (hi : ∀ q q₁, i.Ok q q₁ → ¬q.pc.Clears) : False := by
    rw [hc] at hcode
    obtain ⟨q₁, h₁, h₂⟩ := hcode.of_append
    obtain ⟨q₂, hok, -⟩ := h₂.of_cons
    exact hi _ _ hok (clears_of_plain hpre h₁ hpc)
  cases h.inv.caller with
  | starting hc =>
    have hnil : ∀ j ∈ ([] : List PoolInstr), j.Plain := by simp
    refine (hbefore hnil hc fun q q₁ hok => ?_).elim
    cases hok
    simp [PoolPc.Clears]
  | serving hpre hc =>
    refine (hbefore hpre hc fun q q₁ hok => ?_).elim
    cases hok
    simp [PoolPc.Clears]
  | @polling pre k hpre hk hc =>
    match k, hk with
    | 0, _ | 1, _ | 2, _ | 3, _ =>
      refine (hbefore hpre hc fun q q₁ hok => ?_).elim
      cases hok
      simp [PoolPc.Clears]
  | clearing _ _ _ hw => exact hw w
  | pulling _ _ _ hw => exact hw w
  | freeing _ _ hw => exact hw w

/-- A worker that has left has at most the mutex it is about to release. -/
theorem held_of_left {code : List PoolInstr} {w : Fin n} (h : Left code)
    (hcode : PoolOutline code q (lastPlace (some w))) : ∀ mutex ∈ q.held, mutex = .thcountLock := by
  rcases h with rfl | rfl
  · obtain ⟨q₁, hok, hnil⟩ := hcode.of_cons
    cases hok with
    | @unlock mutex pc held task =>
      obtain ⟨-, rfl, -⟩ := Place.mk.inj hnil.of_nil
      simp
  · rw [hcode.of_nil]
    simp [lastPlace]

/-- A step of a thread does what its place allows. -/
theorem Placed.exec (h : Placed s place) (hc : s.code t = i :: rest)
    (hexec : poolExec t choice i s.mem = some (m', new)) :
    ∃ q', PoolMove t s.mem (place t) m' q' ∧
      Placed (s.replaced t m' new rest) (Function.update place t q') ∧
      ∀ jobP, (place t).Finishes q' jobP ↔ i = .run jobP ∧ choice = .next := by
  obtain ⟨q₁, hok, hnext⟩ := h.outlined.step hc
  obtain ⟨q', hnew, hmove⟩ := poolExec_move hok hexec
  refine ⟨q', hmove, ⟨h.inv.exec hc hexec, hnext m' new q' hnew, h.ok.move hmove ?_, ?_⟩,
    fun _ => finishes_iff hok hexec hnew hmove⟩
  rotate_left
  · obtain ⟨queue, hjobs⟩ := h.inv.jobs
    exact (Function.forall_update_iff place fun _ q => q.pc ≠ .worker (.free .jobHead)).2
      ⟨hmove.not_free hjobs.jobHead (h.free t), fun u _ => h.free u⟩
  intro hpc u hu hsem
  -- only the caller clears the queue, and the others are workers that have left
  have hcaller := h.isCaller t
  obtain rfl : t = none := by
    cases t with
    | none => rfl
    | some w =>
      rw [hpc] at hcaller
      cases hcaller
  obtain ⟨w, rfl⟩ := Option.ne_none_iff_exists'.1 hu
  cases held_of_left (h.left_of_clears (.inl hpc) w) (h.outlined (some w)) _ hsem

/-- Another pool writes the flag. -/
theorem Placed.keepalive (h : Placed s place) (b : Bool) :
    Placed { s with mem := { s.mem with keepalive := b } } place where
  inv := h.inv.keepalive b
  outlined := h.outlined
  ok := ⟨h.ok.owner, h.ok.nodup, h.ok.guarded, h.ok.woken⟩
  free := h.free

/-- In every state of a run the threads are at places that agree with the mutexes. -/
theorem placed_of_reach (h : (destroySystem n J).Reach s) : ∃ place, Placed s place := by
  refine h.invariant (P := fun s => ∃ place, Placed s place)
    (by rintro _ rfl; exact ⟨_, placed_init⟩) ?_
  rintro s (⟨t, choice⟩ | b) s' ⟨place, hplaced⟩ hst
  · obtain ⟨i, rest, m', new, hc, hexec, rfl⟩ := Threads.exists_exec hst
    obtain ⟨q', -, hplaced', -⟩ := hplaced.exec hc hexec
    exact ⟨_, hplaced'⟩
  · cases hst
    exact ⟨place, hplaced.keepalive b⟩

end Nowra
