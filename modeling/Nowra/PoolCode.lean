import Nowra.Threads
import Nowra.Thpool

/-!
# The code of a pool, step by step

`thpool.c` once more, with each lock, unlock, counter update and loop test a step of its own. A
thread is the list of the steps it has left (`Threads`), and the procedures are lists of steps
(`threadDoCode`, `destroyCode` and the others). The steps of `thpool_jobqueue_pull` and
`thpool_jobqueue_push` up to the post are one, `thpoolJobqueuePull_eq_map` and
`thpoolJobqueuePush_eq_map` saying what of the whole procedure that is.

A thread that waits for a condition has released the mutex, and takes it again at any time : the
wake-ups of `pthread_cond_signal` and `pthread_cond_broadcast` may come late or for nothing. A step
through a null pointer, and a job that is not in memory, do not go on. Neither does an unlock by
a thread that does not have the mutex.
-/

namespace Nowra

/-- The mutexes of a pool. -/
inductive PoolMutex
  | thcountLock
  | rwmutex
  /-- The one in the semaphore. -/
  | semMutex
  deriving DecidableEq

/-- The allocations of a pool. -/
inductive PoolBlock
  | thpool
  | jobqueue
  | queueSem
  | threads
  | thread (i : ℕ)
  deriving DecidableEq

/-- A step of the code. -/
inductive PoolInstr
  /-- `tp_p = thread_p->thpool_p` -/
  | readRecord
  /-- `tp_p->jobqueue->queue_sem` -/
  | readSem
  | lock (mutex : PoolMutex)
  | unlock (mutex : PoolMutex)
  | aliveInc
  | aliveDec
  | workingInc
  | workingDec
  | whileKeepalive
  | ifKeepalive
  /-- `while (bsem_p->v != 1)`, and the start of `pthread_cond_wait` -/
  | whileV
  | setV (v : ℕ)
  /-- A worker's `thpool_jobqueue_pull`. -/
  | pull
  | run (jobP : Node)
  | freeJob (jobP : Node)
  | push (newjob : ℕ)
  /-- `while (tp_p->num_threads_alive != threads_num)` -/
  | whileAliveNot
  /-- Between `thpool_init` and `thpool_destroy`. -/
  | client
  /-- The test of `jobqueue->len` in a loop of `thpool_wait`. The first two of its loops end after
  some time. -/
  | waitLen (timed : Bool)
  /-- The test of `num_threads_working` after it. -/
  | waitWorking (timed : Bool)
  /-- `threads_total = tp_p->num_threads_alive` -/
  | readTotal
  | clearKeepalive
  /-- `while (tpassed < TIMEOUT && tp_p->num_threads_alive)` -/
  | whileTimed
  | whileAlive
  | whileLen
  /-- The `thpool_jobqueue_pull` of `thpool_jobqueue_clear`. -/
  | clearPull
  | resetSem
  | clearLen
  | freeBlock (block : PoolBlock)
  /-- The loop over the thread records, at `n`. -/
  | freeThreads (n : ℕ)
  deriving DecidableEq

/-- The blocks a step of thread `i` reads or writes. Both ways out of the loop on the flag read the
pool. -/
def PoolInstr.touches (i : ℕ) : PoolInstr → List PoolBlock
  | readRecord => [.thread i]
  | lock .thcountLock | unlock .thcountLock => [.thpool]
  | lock .rwmutex | unlock .rwmutex => [.thpool, .jobqueue]
  | lock .semMutex | unlock .semMutex | whileV | setV _ | resetSem => [.queueSem]
  | aliveInc | aliveDec | workingInc | workingDec | whileKeepalive | whileAliveNot | readTotal
  | whileTimed | whileAlive | waitWorking _ => [.thpool]
  | readSem | pull | push _ | whileLen | clearPull | clearLen | waitLen _ => [.thpool, .jobqueue]
  | ifKeepalive | run _ | freeJob _ | client | clearKeepalive => []
  | freeBlock block => [block]
  | freeThreads _ => [.thpool, .threads]

/-! ## The procedures -/

def bsemPostCode : List PoolInstr :=
  [.readSem, .lock .semMutex, .setV 1, .unlock .semMutex]

def bsemWaitCode : List PoolInstr :=
  [.readSem, .lock .semMutex, .whileV, .setV 0, .unlock .semMutex]

def addWorkCode (newJob : ℕ) : List PoolInstr :=
  .lock .rwmutex :: .push newJob :: (bsemPostCode ++ [.unlock .rwmutex])

/-- The loops of `thpool_wait`. -/
def waitCode : List PoolInstr :=
  [.waitLen true, .waitLen true, .waitLen false]

/-- `thpool_thread_do` up to the loop. -/
def threadDoCode : List PoolInstr :=
  [.readRecord, .lock .thcountLock, .aliveInc, .unlock .thcountLock, .whileKeepalive]

/-- `thpool_thread_do` from `num_threads_working++` to the pull. -/
def threadWorkCode : List PoolInstr :=
  [.lock .thcountLock, .workingInc, .unlock .thcountLock, .lock .rwmutex, .pull]

/-- `thpool_thread_do` from after the pull to `num_threads_working--`. -/
def threadJobCode (jobP : Node) : List PoolInstr :=
  [.unlock .rwmutex, .run jobP, .freeJob jobP, .lock .thcountLock, .workingDec,
    .unlock .thcountLock]

/-- `thpool_thread_do` after the loop. -/
def threadLeaveCode : List PoolInstr :=
  [.lock .thcountLock, .aliveDec, .unlock .thcountLock]

/-- `thpool_destroy` from after the pull loop of `thpool_jobqueue_clear`. -/
def cleanupCode : List PoolInstr :=
  [.resetSem, .clearLen, .freeBlock .queueSem, .freeBlock .jobqueue, .freeThreads 0,
    .freeBlock .threads, .freeBlock .thpool]

def destroyCode : List PoolInstr :=
  .readTotal :: .clearKeepalive :: .whileTimed :: .whileAlive :: .whileLen :: cleanupCode

/-! ## The steps -/

/-- What the threads share, with what has been freed. A thread is a worker, or `none`, the caller of
`thpool_init` and `thpool_destroy`. -/
structure PoolMem (n : ℕ) (J : Type) where
  tp : Thpool J
  owner : PoolMutex → Option (Option (Fin n))
  /-- `threads_keepalive` -/
  keepalive : Bool
  /-- `threads_total` in `thpool_destroy` -/
  threadsTotal : ℤ
  freed : List PoolBlock
  freedJobs : List ℕ

variable {n : ℕ} {J : Type}

/-- The mutex gets an owner, or none. -/
def PoolMem.setOwner (m : PoolMem n J) (mutex : PoolMutex) (owner : Option (Option (Fin n))) :
    PoolMem n J :=
  { m with owner := Function.update m.owner mutex owner }

/-- `thpool_jobqueue_pull` up to the post, with whether there is one. -/
def jobqueueTake (tp : Thpool J) : Option (Node × Bool × Thpool J) := do
  let jobP ← (tp.ring .jobHead).succ
  let ring ← ringDetach jobP tp.ring
  let tp := { tp with ring := ring }
  pure (jobP, match tp.len with
    | 0 => (false, tp)
    | 1 => (false, { tp with len := 0 })
    | n + 2 => (true, { tp with len := n + 1 }))

/-- `thpool_jobqueue_push` up to the post. -/
def jobqueuePut (tp : Thpool J) (newjob : ℕ) : Option (Thpool J) := do
  let ring ← ringPrepend .jobHead (.job newjob) tp.ring
  pure { tp with ring := ring, len := tp.len + 1 }

/-- The post, or nothing. -/
def postCode (post : Bool) : List PoolInstr := if post then bsemPostCode else []

/-- Allocate a job. -/
def PoolMem.newJob (m : PoolMem n J) (job : J) : PoolMem n J :=
  { m with tp := { m.tp with
      mem := Function.update m.tp.mem (.job m.tp.nextJob) (some job)
      nextJob := m.tp.nextJob + 1 } }

/-- What a step leaves to chance : the next step of the code, a call of `thpool_add_work` in a job
or by the client, a call of `thpool_wait` by the client, or the end of the time of a loop. A job
that calls `thpool_wait` waits for itself, and is left out. -/
inductive PoolChoice (J : Type)
  | next
  | addWork (job : J)
  | wait
  | timeout

/-- A step of thread `t`, with what replaces it. -/
def poolNext (t : Option (Fin n)) :
    PoolInstr → PoolMem n J → Option (PoolMem n J × List PoolInstr)
  | .readRecord, m | .readSem, m => some (m, [])
  | .lock mutex, m => if m.owner mutex = none then some (m.setOwner mutex (some t), []) else none
  | .unlock mutex, m =>
    if m.owner mutex = some t then some (m.setOwner mutex none, []) else none
  | .aliveInc, m =>
    some ({ m with tp := { m.tp with numThreadsAlive := m.tp.numThreadsAlive + 1 } }, [])
  | .aliveDec, m =>
    some ({ m with tp := { m.tp with numThreadsAlive := m.tp.numThreadsAlive - 1 } }, [])
  | .workingInc, m =>
    some ({ m with tp := { m.tp with numThreadsWorking := m.tp.numThreadsWorking + 1 } }, [])
  | .workingDec, m =>
    some ({ m with tp := { m.tp with numThreadsWorking := m.tp.numThreadsWorking - 1 } }, [])
  | .whileKeepalive, m =>
    some (m, if m.keepalive then bsemWaitCode ++ [.ifKeepalive, .whileKeepalive]
      else threadLeaveCode)
  | .ifKeepalive, m => some (m, if m.keepalive then threadWorkCode else [])
  | .whileV, m =>
    if m.tp.v = 1 then some (m, [])
    else some (m.setOwner .semMutex none, [.lock .semMutex, .whileV])
  | .setV v, m => some ({ m with tp := { m.tp with v := v } }, [])
  | .pull, m => (jobqueueTake m.tp).map fun r =>
    ({ m with tp := r.2.2 }, postCode r.2.1 ++ threadJobCode r.1)
  | .run jobP, m => if (m.tp.mem jobP).isSome then some (m, []) else none
  | .freeJob .jobHead, _ => none
  | .freeJob (.job id), m =>
    some ({ m with
      tp := { m.tp with mem := Function.update m.tp.mem (.job id) none }
      freedJobs := m.freedJobs ++ [id] }, [])
  | .push newjob, m => (jobqueuePut m.tp newjob).map fun tp => ({ m with tp := tp }, [])
  | .whileAliveNot, m =>
    some (m, if m.tp.numThreadsAlive ≠ n then [.whileAliveNot] else [])
  | .client, m => some (m, destroyCode)
  | .waitLen timed, m => some (m, if m.tp.len ≠ 0 then [.waitLen timed] else [.waitWorking timed])
  | .waitWorking timed, m =>
    some (m, if m.tp.numThreadsWorking ≠ 0 then [.waitLen timed] else [])
  | .readTotal, m => some ({ m with threadsTotal := m.tp.numThreadsAlive }, [])
  | .clearKeepalive, m => some ({ m with keepalive := false }, [])
  | .whileTimed, m =>
    some (m, if m.tp.numThreadsAlive ≠ 0 then bsemPostCode ++ [.whileTimed] else [])
  | .whileAlive, m =>
    some (m, if m.tp.numThreadsAlive ≠ 0 then bsemPostCode ++ [.whileAlive] else [])
  | .whileLen, m => some (m, if m.tp.len ≠ 0 then [.clearPull, .whileLen] else [])
  | .clearPull, m => (jobqueueTake m.tp).map fun r =>
    ({ m with tp := r.2.2 }, postCode r.2.1 ++ [.freeJob r.1])
  | .resetSem, m => some ({ m.setOwner .semMutex none with tp := { m.tp with v := 0 } }, [])
  | .clearLen, m => some ({ m with tp := { m.tp with len := 0 } }, [])
  | .freeBlock block, m => some ({ m with freed := m.freed ++ [block] }, [])
  | .freeThreads k, m =>
    some (m, if (k : ℤ) < m.threadsTotal then [.freeBlock (.thread k), .freeThreads (k + 1)]
      else [])

/-- A call of `thpool_add_work`. -/
def poolAddWork (job : J) : PoolInstr → PoolMem n J → Option (PoolMem n J × List PoolInstr)
  | .run jobP, m =>
    if (m.tp.mem jobP).isSome then some (m.newJob job, addWorkCode m.tp.nextJob ++ [.run jobP])
    else none
  | .client, m => some (m.newJob job, addWorkCode m.tp.nextJob ++ [.client])
  | _, _ => none

/-- A step of thread `t`. -/
def poolExec (t : Option (Fin n)) :
    PoolChoice J → PoolInstr → PoolMem n J → Option (PoolMem n J × List PoolInstr)
  | .next, i, m => poolNext t i m
  | .addWork job, i, m => poolAddWork job i m
  | .wait, .client, m => some (m, waitCode ++ [.client])
  | .wait, _, _ => none
  | .timeout, .whileTimed, m | .timeout, .waitLen true, m => some (m, [])
  | .timeout, _, _ => none

/-- A pool with the code its threads have left. -/
abbrev PoolThreads (n : ℕ) (J : Type) := Threads (Option (Fin n)) PoolInstr (PoolMem n J)

/-- A step of a thread, or another pool sets or clears the flag. -/
inductive DestroyLabel (n : ℕ) (J : Type)
  | step (t : Option (Fin n)) (choice : PoolChoice J)
  | keepalive (b : Bool)

def destroyStep (s : PoolThreads n J) : DestroyLabel n J → Option (PoolThreads n J)
  | .step t choice => s.step poolExec t choice
  | .keepalive b => some { s with mem := { s.mem with keepalive := b } }

/-- `thpool_init` has made its threads, and waits for them. -/
def destroyInit (n : ℕ) (J : Type) : PoolThreads n J where
  mem :=
    { tp := { thpoolInit J n with numThreadsAlive := 0 }
      owner := fun _ => none
      keepalive := true
      threadsTotal := 0
      freed := []
      freedJobs := [] }
  code t := t.elim [.whileAliveNot, .client] fun _ => threadDoCode

/-- A pool of `n` workers from `thpool_init` to `thpool_destroy`, under any interleaving. -/
def destroySystem (n : ℕ) (J : Type) : LTS (PoolThreads n J) (DestroyLabel n J) where
  init s := s = destroyInit n J
  step s a t := destroyStep s a = some t

/-! ## The queue -/

theorem thpoolJobqueuePull_eq_map (tp : Thpool J) : thpoolJobqueuePull tp =
    (jobqueueTake tp).map fun r => (r.1, if r.2.1 then thpoolBsemPost r.2.2 else r.2.2) := by
  unfold thpoolJobqueuePull jobqueueTake
  cases (tp.ring .jobHead).succ with
  | none => rfl
  | some jobP =>
    simp only [Option.bind_eq_bind, Option.bind_some]
    cases ringDetach jobP tp.ring with
    | none => rfl
    | some ring =>
      obtain ⟨alive, working, ring₀, _ | _ | len, v, mem, nextJob⟩ := tp <;> rfl

theorem thpoolJobqueuePush_eq_map (tp : Thpool J) (newjob : ℕ) :
    thpoolJobqueuePush tp newjob = (jobqueuePut tp newjob).map thpoolBsemPost := by
  unfold thpoolJobqueuePush jobqueuePut
  cases ringPrepend .jobHead (.job newjob) tp.ring <;> rfl

end Nowra
