import Mathlib.Data.Fintype.Card
import Mathlib.Algebra.BigOperators.Group.Finset.Piecewise
import Nowra.Ring
import Nowra.Run

/-!
# The thread pool

`thpool.c` : a queue of jobs on a ring, a binary semaphore, and worker threads that wait on
the semaphore, count themselves as working, pull a job and run it. Each mutex-protected
section is one atomic step (`threadStep`), as is each test of the keep-alive flag.

A job's ring field is named by the job, the queue head by `jobHead`, and `RING_TO_JOB_T` of
the head is no job : it has no entry in `mem`. The queue is the ring through the head
together with a separate counter `len`, as in the code.

`poolSystem n J` is a pool of `n` workers with the keep-alive flag set, run by any
interleaving of `thpool_add_work` calls with the workers' steps. The history of pushes,
pulls and finished jobs is kept next to the pool.
-/

namespace Nowra

/-- Whose ring field it is. -/
inductive Node
  | jobHead
  | job (id : ℕ)
  deriving DecidableEq

/-- A pool with its queue and its semaphore. A `J` is what a job holds, its callback and
context. -/
structure Thpool (J : Type) where
  numThreadsAlive : Int
  numThreadsWorking : Int
  /-- The ring fields. -/
  ring : RingHeap Node
  /-- `jobqueue->len`. -/
  len : ℕ
  /-- `queue_sem->v`. -/
  v : ℕ
  /-- The allocated jobs. -/
  mem : Node → Option J
  /-- The address `mymalloc` gives the next job. -/
  nextJob : ℕ

variable {J : Type}

/-- The pool `thpool_init` returns once its `n` threads have counted themselves. -/
def thpoolInit (J : Type) (n : ℕ) : Thpool J where
  numThreadsAlive := n
  numThreadsWorking := 0
  ring := ringInit .jobHead fun _ => ⟨none, none⟩
  len := 0
  v := 0
  mem _ := none
  nextJob := 0

/-- Post to at least one thread. -/
def thpoolBsemPost (tp : Thpool J) : Thpool J :=
  { tp with v := 1 }

/-- Return from the wait on the semaphore. Nothing while its value is not `1`. -/
def thpoolBsemWait (tp : Thpool J) : Option (Thpool J) :=
  if tp.v = 1 then some { tp with v := 0 } else none

/-- Take the first job off the queue, without a look at whether there is one. -/
def thpoolJobqueuePull (tp : Thpool J) : Option (Node × Thpool J) := do
  let jobP ← (tp.ring .jobHead).succ
  let ring ← ringDetach jobP tp.ring
  let tp := { tp with ring := ring }
  pure (jobP, match tp.len with
    | 0 => tp
    | 1 => { tp with len := 0 }
    | n + 2 => thpoolBsemPost { tp with len := n + 1 })

/-- Add a job to the queue. -/
def thpoolJobqueuePush (tp : Thpool J) (newjob : ℕ) : Option (Thpool J) := do
  let ring ← ringPrepend .jobHead (.job newjob) tp.ring
  pure (thpoolBsemPost { tp with ring := ring, len := tp.len + 1 })

/-- Allocate a job and push it. -/
def thpoolAddWork (tp : Thpool J) (job : J) : Option (ℕ × Thpool J) := do
  let newJob := tp.nextJob
  let tp := { tp with
    mem := Function.update tp.mem (.job newJob) (some job)
    nextJob := newJob + 1 }
  let tp ← thpoolJobqueuePush tp newJob
  pure (newJob, tp)

/-- Where a worker is in `thpool_thread_do`. -/
inductive ThreadPc
  | start
  /-- At `while (threads_keepalive)`. -/
  | loop
  /-- In `thpool_bsem_wait`. -/
  | wait
  /-- At `if (threads_keepalive)`. -/
  | check
  /-- At `num_threads_working++`. -/
  | count
  /-- At `thpool_jobqueue_pull`. -/
  | pull
  /-- Running the job. -/
  | run (jobP : Node)
  /-- At `myfree(job_p)`. -/
  | free (jobP : Node)
  /-- At `num_threads_working--`. -/
  | uncount
  | leave
  | exited
  deriving DecidableEq

/-- One atomic step of `thpool_thread_do`. -/
def threadStep (keepalive : Bool) : ThreadPc → Thpool J → Option (ThreadPc × Thpool J)
  | .start, tp => some (.loop, { tp with numThreadsAlive := tp.numThreadsAlive + 1 })
  | .loop, tp => some (if keepalive then .wait else .leave, tp)
  | .wait, tp => (thpoolBsemWait tp).map fun tp => (.check, tp)
  | .check, tp => some (if keepalive then .count else .loop, tp)
  | .count, tp => some (.pull, { tp with numThreadsWorking := tp.numThreadsWorking + 1 })
  | .pull, tp => (thpoolJobqueuePull tp).map fun r => (.run r.1, r.2)
  | .run jobP, tp => if (tp.mem jobP).isSome then some (.free jobP, tp) else none
  | .free jobP, tp => some (.uncount, { tp with mem := Function.update tp.mem jobP none })
  | .uncount, tp => some (.loop, { tp with numThreadsWorking := tp.numThreadsWorking - 1 })
  | .leave, tp => some (.exited, { tp with numThreadsAlive := tp.numThreadsAlive - 1 })
  | .exited, _ => none

/-! ## A pool with its workers -/

/-- A pool, its workers, and what has happened so far. -/
structure Pool (n : ℕ) (J : Type) where
  tp : Thpool J
  thread : Fin n → ThreadPc
  /-- The jobs pushed, in order. -/
  pushed : List ℕ
  /-- What was pulled, in order. -/
  pulled : List Node
  /-- The jobs whose callback has returned. -/
  finished : List Node

/-- A call of `thpool_add_work` from anywhere, a job included, or a step of a worker. -/
inductive PoolLabel (n : ℕ) (J : Type)
  | addWork (job : J)
  | thread (i : Fin n)

variable {n : ℕ}

/-- What a worker's step pulls. -/
def pulledBy : ThreadPc → ThreadPc → List Node
  | .pull, .run jobP => [jobP]
  | _, _ => []

/-- The job whose callback returns in a worker's step. -/
def finishedBy : ThreadPc → List Node
  | .run jobP => [jobP]
  | _ => []

/-- Worker `i` is at `pc` now, and the pool is `tp`. -/
def Pool.moved (s : Pool n J) (i : Fin n) (pc : ThreadPc) (tp : Thpool J) : Pool n J :=
  { s with
    tp := tp
    thread := Function.update s.thread i pc
    pulled := s.pulled ++ pulledBy (s.thread i) pc
    finished := s.finished ++ finishedBy (s.thread i) }

@[simp] theorem Pool.moved_tp (s : Pool n J) (i : Fin n) (pc : ThreadPc) (tp : Thpool J) :
    (s.moved i pc tp).tp = tp := rfl

@[simp] theorem Pool.moved_thread (s : Pool n J) (i : Fin n) (pc : ThreadPc) (tp : Thpool J) :
    (s.moved i pc tp).thread = Function.update s.thread i pc := rfl

/-- One step of the pool, with the keep-alive flag set. -/
def poolStep (s : Pool n J) : PoolLabel n J → Option (Pool n J)
  | .addWork job => (thpoolAddWork s.tp job).map fun r =>
      { s with tp := r.2, pushed := s.pushed ++ [r.1] }
  | .thread i => (threadStep true (s.thread i) s.tp).map fun r => s.moved i r.1 r.2

/-- The pool just after `thpool_init`. -/
def poolInit (n : ℕ) (J : Type) : Pool n J where
  tp := thpoolInit J n
  thread _ := .loop
  pushed := []
  pulled := []
  finished := []

/-- A pool of `n` workers under any interleaving. -/
def poolSystem (n : ℕ) (J : Type) : LTS (Pool n J) (PoolLabel n J) where
  init s := s = poolInit n J
  step s a t := poolStep s a = some t

/-! ## Counting workers -/

/-- How many workers are at a point where `p` holds. -/
def threadCount (p : ThreadPc → Bool) (thread : Fin n → ThreadPc) : ℕ :=
  (Finset.univ.filter fun i => p (thread i) = true).card

/-- Moving one worker changes a count by that worker. -/
theorem threadCount_update (p : ThreadPc → Bool) (thread : Fin n → ThreadPc) (i : Fin n)
    (pc : ThreadPc) : threadCount p (Function.update thread i pc) + (p (thread i)).toNat =
      threadCount p thread + (p pc).toNat := by
  unfold threadCount
  rw [Finset.card_filter, Finset.card_filter, ← Finset.add_sum_erase _ _ (Finset.mem_univ i),
    ← Finset.add_sum_erase _ (fun j => if p (thread j) = true then 1 else 0) (Finset.mem_univ i)]
  have hrest :
      ∑ j ∈ Finset.univ.erase i, (if p (Function.update thread i pc j) = true then 1 else 0) =
      ∑ j ∈ Finset.univ.erase i, if p (thread j) = true then 1 else 0 := by
    refine Finset.sum_congr rfl fun j hj => ?_
    rw [Function.update_of_ne (Finset.ne_of_mem_erase hj)]
  rw [hrest, Function.update_self]
  cases p (thread i) <;> cases p pc <;> simp <;> omega

theorem threadCount_le (p : ThreadPc → Bool) (thread : Fin n → ThreadPc) :
    threadCount p thread ≤ n :=
  (Finset.card_le_univ _).trans_eq (Fintype.card_fin n)

theorem threadCount_pos {p : ThreadPc → Bool} {thread : Fin n → ThreadPc} :
    0 < threadCount p thread ↔ ∃ i, p (thread i) = true := by
  simp [threadCount, Finset.card_pos, Finset.Nonempty]

/-- The worker has returned from `thpool_bsem_wait` and has not pulled yet. -/
def ThreadPc.holds : ThreadPc → Bool
  | .check | .count | .pull => true
  | _ => false

/-- The worker has counted itself as working. -/
def ThreadPc.working : ThreadPc → Bool
  | .pull | .run _ | .free _ | .uncount => true
  | _ => false

/-- The job a worker has in hand. -/
def ThreadPc.inHand : ThreadPc → Option Node
  | .run jobP | .free jobP => some jobP
  | _ => none

/-- How many workers hold a wake-up they have not used. -/
def Pool.holders (s : Pool n J) : ℕ :=
  threadCount ThreadPc.holds s.thread

/-! ## What a worker's step can do -/

/-- The steps of `threadStep true`, with what each needs and writes. -/
inductive ThreadMove (tp : Thpool J) : ThreadPc → ThreadPc → Thpool J → Prop
  | start : ThreadMove tp .start .loop { tp with numThreadsAlive := tp.numThreadsAlive + 1 }
  | loop : ThreadMove tp .loop .wait tp
  | wait (hv : tp.v = 1) : ThreadMove tp .wait .check { tp with v := 0 }
  | check : ThreadMove tp .check .count tp
  | count : ThreadMove tp .count .pull { tp with numThreadsWorking := tp.numThreadsWorking + 1 }
  | pull {jobP : Node} {tp' : Thpool J} (h : thpoolJobqueuePull tp = some (jobP, tp')) :
      ThreadMove tp .pull (.run jobP) tp'
  | run {jobP : Node} (h : (tp.mem jobP).isSome) : ThreadMove tp (.run jobP) (.free jobP) tp
  | free {jobP : Node} :
      ThreadMove tp (.free jobP) .uncount { tp with mem := Function.update tp.mem jobP none }
  | uncount : ThreadMove tp .uncount .loop
      { tp with numThreadsWorking := tp.numThreadsWorking - 1 }
  | leave : ThreadMove tp .leave .exited { tp with numThreadsAlive := tp.numThreadsAlive - 1 }

theorem threadStep_iff {tp tp' : Thpool J} {pc pc' : ThreadPc} :
    threadStep true pc tp = some (pc', tp') ↔ ThreadMove tp pc pc' tp' := by
  constructor
  · intro h
    cases pc with
    | start => cases h; exact .start
    | loop => cases h; exact .loop
    | wait =>
      simp only [threadStep, thpoolBsemWait] at h
      split at h
      · cases h
        exact .wait ‹_›
      · cases h
    | check => cases h; exact .check
    | count => cases h; exact .count
    | pull =>
      obtain ⟨⟨jobP, tp₁⟩, hp, he⟩ := Option.map_eq_some_iff.1 h
      cases he
      exact .pull hp
    | run jobP =>
      simp only [threadStep] at h
      split at h
      · cases h
        exact .run ‹_›
      · cases h
    | free jobP => cases h; exact .free
    | uncount => cases h; exact .uncount
    | leave => cases h; exact .leave
    | exited => cases h
  · rintro (_ | _ | hv | _ | _ | hp | hm | _ | _ | _)
    all_goals first
      | rfl
      | simp [threadStep, thpoolBsemWait, hv]
      | simp [threadStep, hp]
      | simp [threadStep, hm]

theorem poolStep_of_move {s : Pool n J} {i : Fin n} {pc₀ pc : ThreadPc} {tp : Thpool J}
    (hpc : s.thread i = pc₀) (h : ThreadMove s.tp pc₀ pc tp) :
    poolStep s (.thread i) = some (s.moved i pc tp) := by
  simp [poolStep, hpc, threadStep_iff.2 h]

/-- A worker's step is one of its moves. -/
theorem exists_move {s t : Pool n J} {i : Fin n} (h : poolStep s (.thread i) = some t) :
    ∃ pc tp, ThreadMove s.tp (s.thread i) pc tp ∧ t = s.moved i pc tp := by
  obtain ⟨⟨pc, tp⟩, hst, rfl⟩ := Option.map_eq_some_iff.1 h
  exact ⟨pc, tp, threadStep_iff.1 hst, rfl⟩

theorem Pool.holders_moved (s : Pool n J) (i : Fin n) (pc : ThreadPc) (tp : Thpool J) :
    (s.moved i pc tp).holders + (s.thread i).holds.toNat = s.holders + pc.holds.toNat :=
  threadCount_update _ _ _ _

/-! ## The queue operations on a well-formed ring -/

theorem thpoolJobqueuePull_frame {tp tp' : Thpool J} {x : Node}
    (h : thpoolJobqueuePull tp = some (x, tp')) :
    tp'.numThreadsWorking = tp.numThreadsWorking ∧ tp'.nextJob = tp.nextJob := by
  obtain ⟨y, -, h⟩ := Option.bind_eq_some_iff.1 h
  obtain ⟨ring, -, h⟩ := Option.bind_eq_some_iff.1 h
  obtain ⟨-, rfl⟩ := Prod.mk.inj (Option.some.inj h)
  dsimp only
  split <;> exact ⟨rfl, rfl⟩

theorem thpoolAddWork_frame {tp tp' : Thpool J} {job : J} {id : ℕ}
    (h : thpoolAddWork tp job = some (id, tp')) :
    tp'.numThreadsWorking = tp.numThreadsWorking ∧ id = tp.nextJob ∧
      tp'.nextJob = tp.nextJob + 1 := by
  obtain ⟨tp₁, hpush, h⟩ := Option.bind_eq_some_iff.1 h
  obtain ⟨ring, -, hpush⟩ := Option.bind_eq_some_iff.1 hpush
  obtain rfl := Option.some.inj hpush
  obtain ⟨rfl, rfl⟩ := Prod.mk.inj (Option.some.inj h)
  exact ⟨rfl, rfl, rfl⟩

theorem thpoolJobqueuePull_eq {tp : Thpool J} {x : Node} {l : List Node}
    (hr : IsRing tp.ring .jobHead (x :: l)) (hl : tp.len = (x :: l).length) :
    ∃ ring, thpoolJobqueuePull tp = some (x, { tp with
      ring := ring, len := l.length, v := if l = [] then tp.v else 1 }) ∧
      IsRing ring .jobHead l := by
  have hr₀ : IsRing tp.ring .jobHead ([] ++ x :: l) := hr
  obtain ⟨ring, heq, hr'⟩ := hr₀.ringDetach
  refine ⟨ring, ?_, hr'⟩
  simp only [thpoolJobqueuePull, hr.succ_head, List.headD_cons, Option.bind_eq_bind,
    Option.bind_some, heq, hl]
  cases l <;> rfl

theorem thpoolAddWork_eq {tp : Thpool J} {l : List Node} (job : J)
    (hr : IsRing tp.ring .jobHead l) (hnew : .job tp.nextJob ∉ l) :
    ∃ ring, thpoolAddWork tp job = some (tp.nextJob, { tp with
      ring := ring, len := tp.len + 1, v := 1
      mem := Function.update tp.mem (.job tp.nextJob) (some job), nextJob := tp.nextJob + 1 }) ∧
      IsRing ring .jobHead (l ++ [.job tp.nextJob]) := by
  have hne : Node.job tp.nextJob ∉ .jobHead :: l := by simpa using hnew
  obtain ⟨ring, heq, hr'⟩ := hr.ringPrepend hne
  refine ⟨ring, ?_, hr'⟩
  simp [thpoolAddWork, thpoolJobqueuePush, thpoolBsemPost, heq]

end Nowra
