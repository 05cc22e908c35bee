import Mathlib.Data.Fintype.Option
import Nowra.PoolCode

/-!
# What a step of a pool keeps

Three things are told from the code that the threads of a pool have left : the number of threads
alive (`poolExec_alive`), who has the mutex of the thread counts (`poolExec_countUse`), and which
jobs are neither queued nor freed (`JobsAt.step`).

A pull from the empty queue detaches the head of the ring. Then no pull and no push goes on, and
the worker that has pulled runs what is no job (`Thpool.Broken`).
-/

namespace Nowra

variable {n : ℕ} {J : Type} {t : Option (Fin n)} {choice : PoolChoice J} {i : PoolInstr}
  {m m' : PoolMem n J} {new rest : List PoolInstr} {tp tp' : Thpool J} {queue : List ℕ}

/-! ## The threads alive -/

/-- What a step adds to the number of threads alive until its thread returns, less what it adds
itself. -/
def aliveWeight : PoolInstr → ℤ
  | .aliveInc => -1
  | .aliveDec | .whileKeepalive => 1
  | _ => 0

theorem jobqueueTake_frame {jobP : Node} {post : Bool}
    (h : jobqueueTake tp = some (jobP, post, tp')) :
    tp'.numThreadsAlive = tp.numThreadsAlive ∧ tp'.mem = tp.mem ∧ tp'.nextJob = tp.nextJob := by
  obtain ⟨x, -, h⟩ := Option.bind_eq_some_iff.1 h
  obtain ⟨ring, -, h⟩ := Option.bind_eq_some_iff.1 h
  obtain ⟨-, hr⟩ := Prod.mk.inj (Option.some.inj h)
  dsimp only at hr
  split at hr <;> cases hr <;> exact ⟨rfl, rfl, rfl⟩

theorem jobqueuePut_frame {id : ℕ} (h : jobqueuePut tp id = some tp') :
    tp'.numThreadsAlive = tp.numThreadsAlive ∧ tp'.mem = tp.mem ∧ tp'.nextJob = tp.nextJob := by
  obtain ⟨ring, -, h⟩ := Option.bind_eq_some_iff.1 h
  cases h
  exact ⟨rfl, rfl, rfl⟩

theorem poolNext_alive (h : poolNext t i m = some (m', new)) :
    m'.tp.numThreadsAlive + aliveWeight i = m.tp.numThreadsAlive + codeSum aliveWeight new := by
  cases i
  case pull | clearPull =>
    obtain ⟨⟨jobP, post, tp⟩, hr, h⟩ := Option.map_eq_some_iff.1 h
    cases h
    cases post <;> exact congrArg (· + 0) (jobqueueTake_frame hr).1
  case push =>
    obtain ⟨tp, hr, h⟩ := Option.map_eq_some_iff.1 h
    cases h
    exact congrArg (· + 0) (jobqueuePut_frame hr).1
  case freeJob jobP =>
    cases jobP <;> cases h
    rfl
  all_goals
    simp only [poolNext] at h
    try split at h
    all_goals cases h
    all_goals simp [aliveWeight, PoolMem.setOwner, bsemWaitCode, bsemPostCode, threadLeaveCode,
      threadWorkCode, destroyCode, cleanupCode]

theorem poolAddWork_cases {job : J} (h : poolAddWork job i m = some (m', new)) :
    ((∃ jobP, i = .run jobP ∧ (m.tp.mem jobP).isSome) ∨ i = .client) ∧ m' = m.newJob job ∧
      new = addWorkCode m.tp.nextJob ++ [i] := by
  cases i
  case run jobP =>
    simp only [poolAddWork] at h
    split at h
    · cases h
      exact ⟨.inl ⟨jobP, rfl, ‹_›⟩, rfl, rfl⟩
    · cases h
  case client =>
    cases h
    exact ⟨.inr rfl, rfl, rfl⟩
  all_goals cases h

/-- The steps that a call of `thpool_wait` and the end of the time of a loop replace, by what. -/
inductive Idles : PoolInstr → List PoolInstr → Prop
  | wait : Idles .client (waitCode ++ [.client])
  | whileTimed : Idles .whileTimed []
  | waitLen : Idles (.waitLen true) []

/-- The choices of `poolExec`. -/
theorem poolExec_cases (h : poolExec t choice i m = some (m', new)) :
    poolNext t i m = some (m', new) ∨ (∃ job, poolAddWork job i m = some (m', new)) ∨
      Idles i new ∧ m' = m := by
  cases choice
  case next => exact .inl h
  case addWork job => exact .inr (.inl ⟨job, h⟩)
  case wait =>
    cases i <;> cases h
    exact .inr (.inr ⟨.wait, rfl⟩)
  case timeout =>
    cases i
    case whileTimed =>
      cases h
      exact .inr (.inr ⟨.whileTimed, rfl⟩)
    case waitLen timed =>
      cases timed <;> cases h
      exact .inr (.inr ⟨.waitLen, rfl⟩)
    all_goals cases h

/-- The steps that leave nothing to chance. -/
def PoolInstr.Certain : PoolInstr → Prop
  | .run _ | .client | .whileTimed | .waitLen _ => False
  | _ => True

theorem poolExec_certain (h : poolExec t choice i m = some (m', new)) (hi : i.Certain) :
    poolNext t i m = some (m', new) := by
  rcases poolExec_cases h with h | ⟨job, h⟩ | ⟨hidle, -⟩
  · exact h
  · obtain ⟨⟨jobP, rfl, -⟩ | rfl, -, -⟩ := poolAddWork_cases h
    · exact hi.elim
    · exact hi.elim
  · cases hidle <;> exact hi.elim

/-- The number alive changes by as much as the weight of the code. -/
theorem poolExec_alive (h : poolExec t choice i m = some (m', new)) :
    m'.tp.numThreadsAlive + aliveWeight i = m.tp.numThreadsAlive + codeSum aliveWeight new := by
  rcases poolExec_cases h with h | ⟨job, h⟩ | ⟨hidle, rfl⟩
  · exact poolNext_alive h
  · obtain ⟨⟨jobP, rfl, -⟩ | rfl, rfl, rfl⟩ := poolAddWork_cases h <;>
      simp [addWorkCode, bsemPostCode, aliveWeight, PoolMem.newJob]
  · cases hidle <;> rfl

/-! ## The mutex of the counts -/

/-- What a step does with `thcount_lock`. -/
def countUse : PoolInstr → LockUse
  | .lock .thcountLock => .acquires
  | .unlock .thcountLock => .releases
  | .whileKeepalive | .ifKeepalive | .pull => .outside
  | _ => .neutral

theorem poolNext_countUse (h : poolNext t i m = some (m', new)) :
    (countUse i).Allows countUse t (m.owner .thcountLock) (m'.owner .thcountLock) new := by
  cases i
  case pull | clearPull =>
    obtain ⟨⟨jobP, post, tp⟩, hr, h⟩ := Option.map_eq_some_iff.1 h
    cases h
    cases post <;> simp [countUse, LockUse.Allows, Locks, postCode, bsemPostCode, threadJobCode]
  case push =>
    obtain ⟨tp, hr, h⟩ := Option.map_eq_some_iff.1 h
    cases h
    simp [countUse, LockUse.Allows]
  case freeJob jobP =>
    cases jobP <;> cases h
    simp [countUse, LockUse.Allows]
  case lock mutex | unlock mutex =>
    simp only [poolNext] at h
    split at h <;> cases h
    cases mutex <;> simp_all [countUse, LockUse.Allows, PoolMem.setOwner]
  all_goals
    simp only [poolNext] at h
    try split at h
    all_goals cases h
    all_goals simp [countUse, LockUse.Allows, Locks, PoolMem.setOwner, bsemWaitCode, bsemPostCode,
      threadLeaveCode, threadWorkCode, destroyCode, cleanupCode]

/-- Every step uses the mutex as `countUse` says. -/
theorem poolExec_countUse (h : poolExec t choice i m = some (m', new)) :
    (countUse i).Allows countUse t (m.owner .thcountLock) (m'.owner .thcountLock) new := by
  rcases poolExec_cases h with h | ⟨job, h⟩ | ⟨hidle, rfl⟩
  · exact poolNext_countUse h
  · obtain ⟨⟨jobP, rfl, -⟩ | rfl, rfl, rfl⟩ := poolAddWork_cases h <;>
      simp [addWorkCode, bsemPostCode, countUse, LockUse.Allows, PoolMem.newJob]
  · cases hidle <;> simp [countUse, LockUse.Allows, waitCode]

/-! ## The queue -/

/-- The queue holds the jobs `queue`. -/
structure Thpool.Queue (tp : Thpool J) (queue : List ℕ) : Prop where
  ring : IsRing tp.ring .jobHead (queue.map .job)
  len : tp.len = queue.length

/-- The head of the queue is detached. -/
structure Thpool.Broken (tp : Thpool J) : Prop where
  succ : (tp.ring .jobHead).succ = none
  pred : (tp.ring .jobHead).pred = none

theorem Thpool.Queue.take {id : ℕ} (h : tp.Queue (id :: queue)) :
    ∃ post tp', jobqueueTake tp = some (.job id, post, tp') ∧ tp'.Queue queue := by
  obtain ⟨ring, hpull, hring⟩ := thpoolJobqueuePull_eq h.ring (by simpa using h.len)
  rw [thpoolJobqueuePull_eq_map] at hpull
  obtain ⟨⟨jobP, post, tp'⟩, htake, he⟩ := Option.map_eq_some_iff.1 hpull
  obtain ⟨rfl, htp⟩ := Prod.mk.inj he
  refine ⟨post, tp', htake, ?_, ?_⟩
  · have hr : tp'.ring = ring := by
      cases post <;> exact congrArg Thpool.ring htp
    rwa [hr]
  · have hl : tp'.len = (queue.map Node.job).length := by
      cases post <;> exact congrArg Thpool.len htp
    rw [hl, List.length_map]

/-- A pull from the empty queue. -/
theorem Thpool.Queue.take_nil (h : tp.Queue []) :
    ∃ tp', jobqueueTake tp = some (.jobHead, false, tp') ∧ tp'.Broken := by
  obtain ⟨hsucc, hpred⟩ := h.ring.seg
  obtain ⟨ring, hdetach, hsucc', hpred'⟩ := ringDetach_eq hsucc hpred
  refine ⟨{ tp with ring := ring }, ?_, ?_, ?_⟩
  · have hlen : tp.len = 0 := h.len
    simp [jobqueueTake, hsucc, hdetach, hlen]
  · simp [hsucc']
  · simp [hpred']

theorem Thpool.Queue.put {id : ℕ} (h : tp.Queue queue) (hid : id ∉ queue) :
    ∃ tp', jobqueuePut tp id = some tp' ∧ tp'.Queue (queue ++ [id]) := by
  have hne : Node.job id ∉ .jobHead :: queue.map .job := by simpa using hid
  obtain ⟨ring, hprepend, hring⟩ := h.ring.ringPrepend hne
  refine ⟨{ tp with ring := ring, len := tp.len + 1 }, ?_, ?_, ?_⟩
  · simp [jobqueuePut, hprepend]
  · simpa using hring
  · simp [h.len]

theorem Thpool.Broken.take (h : tp.Broken) : jobqueueTake tp = none := by
  simp [jobqueueTake, h.succ]

theorem Thpool.Broken.put (h : tp.Broken) (id : ℕ) : jobqueuePut tp id = none := by
  simp [jobqueuePut, ringPrepend, RingHeap.setSucc, RingHeap.setPred, h.pred]

/-! ## The jobs -/

/-- The job that a step queues or frees. -/
def heldJobs : PoolInstr → Multiset ℕ
  | .push newjob => {newjob}
  | .freeJob (.job id) => {id}
  | _ => 0

theorem Idles.heldJobs (h : Idles i new) : heldJobs i = 0 ∧ codeSum heldJobs new = 0 := by
  cases h <;> exact ⟨rfl, rfl⟩

/-- The steps that change which jobs are queued, or free one. -/
def PoolInstr.OnQueue : PoolInstr → Prop
  | .pull | .clearPull | .push _ | .freeJob _ | .clearLen => True
  | _ => False

/-- Any other step leaves the jobs as they are. -/
theorem poolNext_quiet (h : poolNext t i m = some (m', new)) (hi : ¬i.OnQueue) :
    m'.tp.ring = m.tp.ring ∧ m'.tp.len = m.tp.len ∧ m'.tp.nextJob = m.tp.nextJob ∧
      m'.freedJobs = m.freedJobs ∧ heldJobs i = 0 ∧ codeSum heldJobs new = 0 := by
  cases i
  case pull | clearPull | push | freeJob | clearLen => exact absurd trivial hi
  all_goals
    simp only [poolNext] at h
    try split at h
    all_goals cases h
    all_goals simp [heldJobs, PoolMem.setOwner, bsemWaitCode, bsemPostCode, threadLeaveCode,
      threadWorkCode, destroyCode, cleanupCode]

/-- The jobs are the same before and after a step, but for those that it allocates. -/
def JobsKept (m : PoolMem n J) (queue : List ℕ) (i : PoolInstr) (m' : PoolMem n J)
    (queue' : List ℕ) (new : List PoolInstr) : Prop :=
  (m'.freedJobs : Multiset ℕ) + queue' + codeSum heldJobs new + Multiset.range m.tp.nextJob =
    (m.freedJobs : Multiset ℕ) + queue + heldJobs i + Multiset.range m'.tp.nextJob

/-- A step that frees, queues and allocates nothing. -/
theorem JobsKept.of_quiet (queue : List ℕ) (hfreed : m'.freedJobs = m.freedJobs)
    (hnext : m'.tp.nextJob = m.tp.nextJob) (hi : heldJobs i = 0) (hnew : codeSum heldJobs new = 0) :
    JobsKept m queue i m' queue new := by
  rw [JobsKept, hfreed, hnext, hi, hnew]

theorem JobsKept.freeJob (queue : List ℕ) {id : ℕ} {tp' : Thpool J}
    (hnext : tp'.nextJob = m.tp.nextJob) :
    JobsKept m queue (.freeJob (.job id))
      { m with tp := tp', freedJobs := m.freedJobs ++ [id] } queue [] := by
  rw [JobsKept, hnext, ← Multiset.coe_add, Multiset.coe_singleton]
  simp only [heldJobs, codeSum_nil]
  ac_rfl

theorem JobsKept.take {id : ℕ} {tp' : Thpool J} (hnext : tp'.nextJob = m.tp.nextJob)
    (hi : heldJobs i = 0) (hnew : codeSum heldJobs new = {id}) :
    JobsKept m (id :: queue) i { m with tp := tp' } queue new := by
  rw [JobsKept, hnext, hi, hnew, ← Multiset.cons_coe, ← Multiset.singleton_add]
  simp only [add_zero]
  ac_rfl

theorem JobsKept.put {id : ℕ} {tp' : Thpool J} (hnext : tp'.nextJob = m.tp.nextJob) :
    JobsKept m queue (.push id) { m with tp := tp' } (queue ++ [id]) [] := by
  rw [JobsKept, hnext, ← Multiset.coe_add, Multiset.coe_singleton]
  simp only [heldJobs, codeSum_nil, add_zero]
  ac_rfl

theorem JobsKept.newJob (queue : List ℕ) (job : J) (hi : heldJobs i = 0) :
    JobsKept m queue i (m.newJob job) queue (addWorkCode m.tp.nextJob ++ [i]) := by
  have hnew : codeSum heldJobs (addWorkCode m.tp.nextJob ++ [i]) = {m.tp.nextJob} := by
    rw [codeSum_append, codeSum_cons, hi]
    simp [addWorkCode, bsemPostCode, heldJobs]
  rw [JobsKept, hnew, hi]
  simp only [PoolMem.newJob, Multiset.range_succ, ← Multiset.singleton_add, add_zero]
  ac_rfl

theorem heldJobs_postCode (post : Bool) : codeSum heldJobs (postCode post) = 0 := by
  cases post <;> rfl

theorem heldJobs_threadJobCode (jobP : Node) :
    codeSum heldJobs (threadJobCode jobP) = heldJobs (.freeJob jobP) := by
  simp [threadJobCode, heldJobs]

/-- A step of the code with a queue that is whole. -/
theorem poolNext_queue (hq : m.tp.Queue queue) (hpush : ∀ id, i = .push id → id ∉ queue)
    (hclear : i = .clearPull → m.tp.len ≠ 0) (hlen : i = .clearLen → m.tp.len = 0)
    (h : poolNext t i m = some (m', new)) :
    ∃ queue', (m'.tp.Queue queue' ∨ queue' = [] ∧ m'.tp.Broken ∧ .run .jobHead ∈ new) ∧
      JobsKept m queue i m' queue' new := by
  by_cases hi : i.OnQueue
  · cases i <;> try exact hi.elim
    case pull =>
      obtain ⟨⟨jobP, post, tp⟩, hr, h⟩ := Option.map_eq_some_iff.1 h
      cases h
      cases queue with
      | nil =>
        obtain ⟨tp', htake, hbroken⟩ := hq.take_nil
        cases hr.symm.trans htake
        exact ⟨[], .inr ⟨rfl, hbroken, by simp [threadJobCode]⟩,
          .of_quiet _ rfl (jobqueueTake_frame hr).2.2 rfl (by
            rw [codeSum_append, heldJobs_postCode, heldJobs_threadJobCode]; rfl)⟩
      | cons id queue =>
        obtain ⟨post', tp', htake, hqueue⟩ := hq.take
        cases hr.symm.trans htake
        exact ⟨queue, .inl hqueue, .take (jobqueueTake_frame hr).2.2 rfl (by
          rw [codeSum_append, heldJobs_postCode, heldJobs_threadJobCode, zero_add]; rfl)⟩
    case clearPull =>
      obtain ⟨⟨jobP, post, tp⟩, hr, h⟩ := Option.map_eq_some_iff.1 h
      cases h
      cases queue with
      | nil => exact absurd hq.len (hclear rfl)
      | cons id queue =>
        obtain ⟨post', tp', htake, hqueue⟩ := hq.take
        cases hr.symm.trans htake
        exact ⟨queue, .inl hqueue, .take (jobqueueTake_frame hr).2.2 rfl (by
          rw [codeSum_append, heldJobs_postCode, zero_add]; rfl)⟩
    case push id =>
      obtain ⟨tp, hr, h⟩ := Option.map_eq_some_iff.1 h
      cases h
      obtain ⟨tp', hput, hqueue⟩ := hq.put (hpush id rfl)
      cases hr.symm.trans hput
      exact ⟨queue ++ [id], .inl hqueue, .put (jobqueuePut_frame hr).2.2⟩
    case freeJob jobP =>
      cases jobP <;> cases h
      exact ⟨queue, .inl ⟨hq.ring, hq.len⟩, .freeJob queue rfl⟩
    case clearLen =>
      cases h
      exact ⟨queue, .inl ⟨hq.ring, (hlen rfl).symm.trans hq.len⟩, .of_quiet _ rfl rfl rfl rfl⟩
  · obtain ⟨hring, hlen', hnext, hfreed, hheld, hnew⟩ := poolNext_quiet h hi
    exact ⟨queue, .inl ⟨hring ▸ hq.ring, hlen'.trans hq.len⟩, .of_quiet _ hfreed hnext hheld hnew⟩

/-- A step with a queue that is whole. -/
theorem poolExec_queue (hq : m.tp.Queue queue) (hpush : ∀ id, i = .push id → id ∉ queue)
    (hclear : i = .clearPull → m.tp.len ≠ 0) (hlen : i = .clearLen → m.tp.len = 0)
    (h : poolExec t choice i m = some (m', new)) :
    ∃ queue', (m'.tp.Queue queue' ∨ queue' = [] ∧ m'.tp.Broken ∧ .run .jobHead ∈ new) ∧
      JobsKept m queue i m' queue' new := by
  rcases poolExec_cases h with h | ⟨job, h⟩ | ⟨hidle, rfl⟩
  · exact poolNext_queue hq hpush hclear hlen h
  · obtain ⟨hi, rfl, rfl⟩ := poolAddWork_cases h
    refine ⟨queue, .inl ⟨hq.ring, hq.len⟩, .newJob queue job ?_⟩
    obtain ⟨jobP, rfl, -⟩ | rfl := hi <;> rfl
  · exact ⟨queue, .inl hq, .of_quiet _ rfl rfl hidle.heldJobs.1 hidle.heldJobs.2⟩

/-- A step with the head detached. -/
theorem poolExec_broken (hb : m.tp.Broken) (hexec : poolExec t choice i m = some (m', new)) :
    m'.tp.Broken ∧ JobsKept m [] i m' [] new := by
  rcases poolExec_cases hexec with h | ⟨job, h⟩ | ⟨hidle, rfl⟩
  · by_cases hi : i.OnQueue
    · cases i <;> try exact hi.elim
      case pull | clearPull => simp [poolNext, hb.take] at h
      case push id => simp [poolNext, hb.put] at h
      case freeJob jobP =>
        cases jobP <;> cases h
        exact ⟨⟨hb.succ, hb.pred⟩, .freeJob [] rfl⟩
      case clearLen =>
        cases h
        exact ⟨⟨hb.succ, hb.pred⟩, .of_quiet _ rfl rfl rfl rfl⟩
    · obtain ⟨hring, -, hnext, hfreed, hheld, hnew⟩ := poolNext_quiet h hi
      exact ⟨⟨hring ▸ hb.succ, hring ▸ hb.pred⟩, .of_quiet _ hfreed hnext hheld hnew⟩
  · obtain ⟨hi, rfl, rfl⟩ := poolAddWork_cases h
    refine ⟨⟨hb.succ, hb.pred⟩, .newJob [] job ?_⟩
    obtain ⟨jobP, rfl, -⟩ | rfl := hi <;> rfl
  · exact ⟨hb, .of_quiet _ rfl rfl hidle.heldJobs.1 hidle.heldJobs.2⟩

/-- The head of the queue is no job, so a thread that runs it does not go on. -/
theorem poolExec_jobHead (hhead : m.tp.mem .jobHead = none)
    (hexec : poolExec t choice i m = some (m', new)) :
    m'.tp.mem .jobHead = none ∧ i ≠ .run .jobHead := by
  refine ⟨?_, ?_⟩
  · rcases poolExec_cases hexec with h | ⟨job, h⟩ | ⟨-, rfl⟩
    · cases i
      case pull | clearPull =>
        obtain ⟨⟨jobP, post, tp⟩, hr, h⟩ := Option.map_eq_some_iff.1 h
        cases h
        exact (congrFun (jobqueueTake_frame hr).2.1 _).trans hhead
      case push =>
        obtain ⟨tp, hr, h⟩ := Option.map_eq_some_iff.1 h
        cases h
        exact (congrFun (jobqueuePut_frame hr).2.1 _).trans hhead
      case freeJob jobP =>
        cases jobP <;> cases h
        exact hhead
      all_goals
        simp only [poolNext] at h
        try split at h
        all_goals cases h
        all_goals exact hhead
    · obtain ⟨-, rfl, -⟩ := poolAddWork_cases h
      exact hhead
    · exact hhead
  · rintro rfl
    rcases poolExec_cases hexec with h | ⟨job, h⟩ | ⟨hidle, -⟩
    · simp [poolNext, hhead] at h
    · simp [poolAddWork, hhead] at h
    · cases hidle

/-- The jobs so far are queued, at a thread that queues or frees them, or freed, each of them
once. -/
structure JobsAt (s : PoolThreads n J) (queue : List ℕ) : Prop where
  whole : s.mem.tp.Queue queue ∨
    queue = [] ∧ s.mem.tp.Broken ∧ ∃ t, .run .jobHead ∈ s.code t
  jobs : (s.mem.freedJobs : Multiset ℕ) + queue + totalSum heldJobs s.code =
    Multiset.range s.mem.tp.nextJob
  jobHead : s.mem.tp.mem .jobHead = none

variable {s : PoolThreads n J}

theorem JobsAt.nodup (h : JobsAt s queue) : s.mem.freedJobs.Nodup := by
  have hle : (s.mem.freedJobs : Multiset ℕ) ≤ Multiset.range s.mem.tp.nextJob := by
    rw [← h.jobs, add_assoc]
    exact Multiset.le_add_right _ _
  exact Multiset.coe_nodup.1 (Multiset.nodup_of_le hle (Multiset.nodup_range _))

/-- A job that a thread is about to queue or free is not queued. -/
theorem JobsAt.notMem (h : JobsAt s queue) (hc : s.code t = i :: rest) {id : ℕ}
    (hi : id ∈ heldJobs i) : id ∉ queue := by
  have hnodup := Multiset.nodup_range s.mem.tp.nextJob
  rw [← h.jobs, totalSum_eq_add heldJobs s.code t, hc, codeSum_cons] at hnodup
  have hdisjoint := (Multiset.nodup_add.1 hnodup).2.2
  intro hid
  exact Multiset.disjoint_left.1 hdisjoint (Multiset.mem_add.2 (.inr hid))
    (Multiset.mem_add.2 (.inl (Multiset.mem_add.2 (.inl hi))))

theorem JobsKept.jobs {queue' : List ℕ} (hkept : JobsKept s.mem queue i m' queue' new)
    (hc : s.code t = i :: rest)
    (hjobs : (s.mem.freedJobs : Multiset ℕ) + queue + totalSum heldJobs s.code =
      Multiset.range s.mem.tp.nextJob) :
    (m'.freedJobs : Multiset ℕ) + queue' +
      totalSum heldJobs (Function.update s.code t (new ++ rest)) =
        Multiset.range m'.tp.nextJob := by
  have hsum := totalSum_update heldJobs hc new
  rw [JobsKept] at hkept
  ext id
  have hk := congrArg (Multiset.count id) hkept
  have hs := congrArg (Multiset.count id) hsum
  have hj := congrArg (Multiset.count id) hjobs
  simp only [Multiset.count_add] at hk hs hj ⊢
  omega

/-- A step keeps the jobs, each of them in one place. -/
theorem JobsAt.step (h : JobsAt s queue) (hc : s.code t = i :: rest)
    (hexec : poolExec t choice i s.mem = some (m', new))
    (hclear : i = .clearPull → s.mem.tp.len ≠ 0) (hlen : i = .clearLen → s.mem.tp.len = 0) :
    ∃ queue', JobsAt (s.replaced t m' new rest) queue' := by
  obtain ⟨hhead, hrun⟩ := poolExec_jobHead h.jobHead hexec
  rcases h.whole with hq | ⟨rfl, hb, u, hu⟩
  · have hpush : ∀ id, i = .push id → id ∉ queue := by
      rintro id rfl
      exact h.notMem hc (by simp [heldJobs])
    obtain ⟨queue', hqueue, hkept⟩ := poolExec_queue hq hpush hclear hlen hexec
    refine ⟨queue', ?_, hkept.jobs hc h.jobs, hhead⟩
    rcases hqueue with hqueue | ⟨rfl, hb, hmem⟩
    · exact .inl hqueue
    · exact .inr ⟨rfl, hb, t, by simp [hmem]⟩
  · obtain ⟨hb', hkept⟩ := poolExec_broken hb hexec
    refine ⟨[], .inr ⟨rfl, hb', u, ?_⟩, hkept.jobs hc h.jobs, hhead⟩
    by_cases hut : u = t
    · subst hut
      rw [hc] at hu
      rcases List.mem_cons.1 hu with hu | hu
      · exact absurd hu.symm hrun
      · simp [hu]
    · rwa [Threads.replaced_code_of_ne hut]

end Nowra
