import Nowra.Places

/-!
# Shared data of a pool

Which data the steps of a pool read and write (`PoolInstr.reads`, `PoolInstr.writes`), and that
the mutexes keep them apart. In every run two threads are about to use the same data, one of them
to write it, only when the other one reads without a mutex (`no_race`) : the flag is tested, the
number of threads alive is polled, or `thpool_wait` looks at the length of the queue or the number
of threads working. In particular the steps of the queue that are one step here are interrupted by
no other access to its ring.

However a run has gone, steps of threads that have a mutex lead to where the mutex that another
thread waits for is free (`mutex_free`), as the only mutex that is taken under another one is that
of the semaphore. The exception is a queue whose head is detached, where a thread stays in the
operation on the queue.
-/

namespace Nowra

variable {n : ℕ} {J : Type}

/-! ## Data -/

/-- What the threads share, and the jobs. -/
inductive PoolVar
  | numThreadsAlive
  | numThreadsWorking
  | threadsKeepalive
  /-- The ring of the queue. -/
  | jobHead
  /-- The length of the queue. -/
  | len
  | v
  /-- The callback and the context. -/
  | job (jobP : Node)
  deriving DecidableEq

/-- The mutex for it. -/
def PoolVar.mutex : PoolVar → Option PoolMutex
  | .numThreadsAlive | .numThreadsWorking => some .thcountLock
  | .jobHead | .len => some .rwmutex
  | .v => some .semMutex
  | .threadsKeepalive | .job _ => none

def PoolInstr.reads : PoolInstr → List PoolVar
  | .aliveInc | .aliveDec | .whileAliveNot | .readTotal | .whileTimed | .whileAlive =>
    [.numThreadsAlive]
  | .workingInc | .workingDec | .waitWorking _ => [.numThreadsWorking]
  | .whileKeepalive | .ifKeepalive => [.threadsKeepalive]
  | .whileV => [.v]
  | .pull | .push _ | .clearPull => [.jobHead, .len]
  | .whileLen | .waitLen _ => [.len]
  | .run jobP => [.job jobP]
  | _ => []

def PoolInstr.writes : PoolInstr → List PoolVar
  | .aliveInc | .aliveDec => [.numThreadsAlive]
  | .workingInc | .workingDec => [.numThreadsWorking]
  | .clearKeepalive => [.threadsKeepalive]
  | .setV _ | .resetSem => [.v]
  | .pull | .push _ | .clearPull => [.jobHead, .len]
  | .clearLen => [.len]
  | .freeJob jobP => [.job jobP]
  | _ => []

def PoolInstr.uses (i : PoolInstr) : List PoolVar :=
  i.reads ++ i.writes

/-- The reads without a mutex : the flag, the number of threads alive while threads are made and
destroyed, and what `thpool_wait` looks at. -/
def PoolInstr.Polls : PoolInstr → PoolVar → Prop
  | .whileKeepalive, .threadsKeepalive | .ifKeepalive, .threadsKeepalive => True
  | .whileAliveNot, .numThreadsAlive | .readTotal, .numThreadsAlive
  | .whileTimed, .numThreadsAlive | .whileAlive, .numThreadsAlive => True
  | .waitLen _, .len => True
  | .waitWorking _, .numThreadsWorking => True
  | _, _ => False

variable {t u : Option (Fin n)} {i j : PoolInstr} {rest rest' : List PoolInstr}
  {s : PoolThreads n J} {place : Option (Fin n) → Place} {q q₁ : Place}

/-- What a mutex is for is used with the mutex, polled, or used by the caller after the workers
have left. -/
theorem PoolInstr.Ok.holds (h : i.Ok q q₁) {x : PoolVar} (hx : x ∈ i.uses) {mutex : PoolMutex}
    (hmutex : x.mutex = some mutex) : mutex ∈ q.held ∨ i.Polls x ∨ q.pc = .caller .clearing := by
  cases h <;>
    simp only [uses, reads, writes, List.nil_append, List.append_nil, List.cons_append,
      List.mem_cons, List.not_mem_nil, or_false, or_self] at hx <;>
    (first | subst hx | rcases hx with rfl | rfl | rfl | rfl) <;> cases hmutex <;> simp [Polls]

/-- A read without a mutex writes nothing. -/
theorem PoolInstr.writes_of_polls {x : PoolVar} (h : i.Polls x) : i.writes = [] := by
  cases i <;> first | rfl | (cases x <;> exact h.elim)

/-- A worker that has left uses nothing. -/
theorem uses_of_left (h : Left (i :: rest)) : i.uses = [] := by
  rcases h with h | h
  · obtain ⟨rfl, -⟩ := List.cons.inj h
    rfl
  · cases h

/-- The caller clears the queue, and the other threads use nothing. -/
theorem Placed.uses_of_clearing (h : Placed s place) (ht : (place t).pc = .caller .clearing)
    (hu : u ≠ t) (hc : s.code u = j :: rest') : j.uses = [] := by
  have hcaller := h.isCaller t
  obtain rfl : t = none := by
    cases t with
    | none => rfl
    | some w =>
      rw [ht] at hcaller
      cases hcaller
  obtain ⟨w, rfl⟩ := Option.ne_none_iff_exists'.1 hu
  exact uses_of_left (hc ▸ h.left_of_clears (.inl ht) w)

/-! ## Jobs -/

/-- The worker has the job in hand. -/
def Place.Has (q : Place) (jobP : Node) : Prop :=
  q.pc = .worker (.run jobP) ∨ q.pc = .worker (.free jobP)

/-- A job in hand is freed later. -/
theorem freeJob_mem {code : List PoolInstr} {jobP : Node} {w : Fin n}
    (h : PoolOutline code q (lastPlace (some w))) (hq : q.Has jobP) : .freeJob jobP ∈ code := by
  generalize hl : lastPlace (some w) = last at h
  induction h with
  | nil =>
    subst hl
    simp [Place.Has, lastPlace] at hq
  | @cons i code q q₁ q₂ hi _ ih =>
    by_cases hq₁ : q₁.Has jobP
    · exact List.mem_cons_of_mem _ (ih hq₁ hl)
    · cases hi <;> simp_all [Place.Has]

/-- A job has one thread at most that queues or frees it. -/
theorem JobsAt.eq_of_held {queue : List ℕ} (h : JobsAt s queue) {id : ℕ}
    (ht : id ∈ codeSum heldJobs (s.code t)) (hu : id ∈ codeSum heldJobs (s.code u)) : t = u := by
  by_contra hne
  have hnodup := Multiset.nodup_range s.mem.tp.nextJob
  rw [← h.jobs, totalSum_eq_add heldJobs s.code t] at hnodup
  have hdisjoint := (Multiset.nodup_add.1 (Multiset.nodup_add.1 hnodup).2.1).2.2
  refine Multiset.disjoint_left.1 hdisjoint ht ?_
  exact Multiset.mem_of_le (Finset.single_le_sum (f := fun u => codeSum heldJobs (s.code u))
    (fun _ _ => Multiset.zero_le _) (Finset.mem_erase.2 ⟨Ne.symm hne, Finset.mem_univ u⟩)) hu

theorem mem_codeSum {code : List PoolInstr} {id : ℕ} (h : .freeJob (.job id) ∈ code) :
    id ∈ codeSum heldJobs code := by
  obtain ⟨pre, post, rfl⟩ := List.append_of_mem h
  simp [heldJobs]

/-- A worker that runs or frees a job, or the caller that frees one. -/
theorem Placed.uses_job (h : Placed s place) (ht : s.code t = i :: rest) {jobP : Node}
    (hx : .job jobP ∈ i.uses) : (place t).Has jobP ∨ (place t).pc = .caller .clearing := by
  obtain ⟨q₁, hok, -⟩ := (ht ▸ h.outlined t : PoolOutline (i :: rest) _ _).of_cons
  generalize place t = q at hok
  cases hok <;> simp_all [PoolInstr.uses, PoolInstr.reads, PoolInstr.writes, Place.Has]

/-- The job a worker runs or frees is no other thread's. -/
theorem Placed.eq_of_has (h : Placed s place) {id : ℕ} (ht : (place t).Has (.job id))
    (hu : (place u).Has (.job id)) : t = u := by
  obtain ⟨queue, hjobs⟩ := h.inv.jobs
  have hmem {v : Option (Fin n)} (hv : (place v).Has (.job id)) :
      id ∈ codeSum heldJobs (s.code v) := by
    have hcaller := h.isCaller v
    cases v with
    | none =>
      rcases hv with hv | hv <;> rw [hv] at hcaller <;> cases hcaller
    | some w => exact mem_codeSum (freeJob_mem (h.outlined (some w)) hv)
  exact hjobs.eq_of_held (hmem ht) (hmem hu)

/-- In every run, two threads are about to use the same data, one of them to write it, only if
the other one polls it without a mutex. -/
theorem no_race (h : (destroySystem n J).Reach s) (hne : t ≠ u) (ht : s.code t = i :: rest)
    (hu : s.code u = j :: rest') {x : PoolVar} (hi : x ∈ i.writes) (hj : x ∈ j.uses) :
    j.Polls x := by
  obtain ⟨place, hp⟩ := placed_of_reach h
  have hi' : x ∈ i.uses := List.mem_append_right _ hi
  obtain ⟨q₁, hok, -⟩ := (ht ▸ hp.outlined t : PoolOutline (i :: rest) _ _).of_cons
  obtain ⟨q₂, hok', -⟩ := (hu ▸ hp.outlined u : PoolOutline (j :: rest') _ _).of_cons
  have hclear : (place t).pc ≠ .caller .clearing := fun hpc => by
    rw [hp.uses_of_clearing hpc (Ne.symm hne) hu] at hj
    cases hj
  have hclear' : (place u).pc ≠ .caller .clearing := fun hpc => by
    rw [hp.uses_of_clearing hpc hne ht] at hi'
    cases hi'
  cases hx : x.mutex with
  | some mutex =>
    rcases hok.holds hi' hx with hheld | hpoll | hpc
    · rcases hok'.holds hj hx with hheld' | hpoll | hpc
      · exact absurd (hp.ok.eq_of_held hheld hheld') hne
      · exact hpoll
      · exact absurd hpc hclear'
    · rw [PoolInstr.writes_of_polls hpoll] at hi
      cases hi
    · exact absurd hpc hclear
  | none =>
    cases x with
    | threadsKeepalive =>
      -- the flag is written by the caller only
      obtain rfl : i = .clearKeepalive := by
        cases i <;> simp [PoolInstr.writes] at hi
        rfl
      by_cases htest : j.Polls .threadsKeepalive
      · exact htest
      · obtain rfl : j = .clearKeepalive := by
          cases j <;> simp_all [PoolInstr.uses, PoolInstr.reads, PoolInstr.writes,
            PoolInstr.Polls]
        have hcaller := hp.isCaller t
        have hcaller' := hp.isCaller u
        generalize place t = q at hok hcaller
        generalize place u = q' at hok' hcaller'
        cases hok
        cases hok'
        cases t <;> cases u <;> simp_all [PoolPc.isCaller]
    | job jobP =>
      have hhas := (hp.uses_job ht hi').resolve_right hclear
      have hhas' := (hp.uses_job hu hj).resolve_right hclear'
      cases jobP with
      | job id => exact absurd (hp.eq_of_has hhas hhas') hne
      | jobHead =>
        obtain rfl : i = .freeJob .jobHead := by
          cases i <;> simp_all [PoolInstr.writes]
        have hfree := hp.free t
        generalize place t = q at hok hfree hclear
        cases hok <;> simp_all
    | numThreadsAlive | numThreadsWorking | jobHead | len | v => cases hx

/-- The worker is about to pull the job that the client has added, and so to write the length of the
queue, while the client reads it in `thpool_wait`. -/
theorem no_race_wait : ∃ (s : PoolThreads 1 Unit) (rest rest' : List PoolInstr),
    (destroySystem 1 Unit).Reach s ∧ s.code (some 0) = .pull :: rest ∧
      s.code none = .waitLen true :: rest' ∧ PoolVar.len ∈ PoolInstr.pull.writes ∧
      (PoolInstr.waitLen true).Polls .len := by
  have hrun : ((stepsOf (some 0) 4 ++ stepsOf none 1 ++ [DestroyLabel.step none (.addWork ())] ++
      stepsOf none 7 ++ [DestroyLabel.step none .wait] ++ stepsOf (some 0) 11).foldlM destroyStep
      (destroyInit 1 Unit)).any (fun s : PoolThreads 1 Unit =>
        s.code (some 0) = PoolInstr.pull :: [.whileKeepalive] ∧
          s.code none = PoolInstr.waitLen true :: (waitCode.tail ++ [PoolInstr.client])) =
            true := by
    decide +kernel
  obtain ⟨s, hfold, hobs⟩ := (Option.any_eq_true _ _).1 hrun
  obtain ⟨hworker, hclient⟩ := of_decide_eq_true hobs
  obtain ⟨tr, hpath, -⟩ :=
    LTS.Path.of_foldlM (S := destroySystem 1 Unit) (fun _ _ _ hst => hst) hfold
  have hr : (destroySystem 1 Unit).Reach s := ⟨tr, _, rfl, hpath⟩
  have hwrites : PoolVar.len ∈ PoolInstr.pull.writes := by simp [PoolInstr.writes]
  have huses : PoolVar.len ∈ (PoolInstr.waitLen true).uses := by
    simp [PoolInstr.uses, PoolInstr.reads]
  exact ⟨s, _, _, hr, hworker, hclient, hwrites,
    no_race hr (by simp) hworker hclient hwrites huses⟩

/-! ## Waiting for a mutex -/

/-- The steps until the mutex is released, at most. -/
def untilUnlock (mutex : PoolMutex) : List PoolInstr → ℕ
  | [] => 0
  | .pull :: code => 6 + untilUnlock mutex code
  | i :: code => if i = .unlock mutex then 1 else 1 + untilUnlock mutex code

theorem untilUnlock_cons {mutex : PoolMutex} {code : List PoolInstr} (h : i ≠ .pull) :
    untilUnlock mutex (i :: code) =
      if i = .unlock mutex then 1 else 1 + untilUnlock mutex code := by
  cases i <;> first | rfl | exact absurd rfl h

/-- The queue is whole, or the thread is about to release the mutex. -/
def ReadyToUnlock (mutex : PoolMutex) (u : Option (Fin n)) (s : PoolThreads n J) : Prop :=
  (∃ queue, s.mem.tp.Queue queue) ∨ ∃ rest, s.code u = .unlock mutex :: rest

/-- A step of the owner that is no lock goes on, and brings the release nearer. -/
theorem Placed.owner_step (hp : Placed s place) {mutex : PoolMutex}
    (hheld : mutex ∈ (place u).held) (hc : s.code u = i :: rest) (hlock : ∀ m, i ≠ .lock m)
    (hready : ReadyToUnlock mutex u s) :
    ∃ m' new, poolExec u .next i s.mem = some (m', new) ∧
      (mutex ≠ .rwmutex → m'.tp.ring = s.mem.tp.ring ∧ m'.tp.len = s.mem.tp.len) ∧
      (m'.owner mutex = none ∨
        m'.owner mutex = some u ∧ ReadyToUnlock mutex u (s.replaced u m' new rest) ∧
          untilUnlock mutex (new ++ rest) < untilUnlock mutex (i :: rest)) := by
  have howner := (hp.ok.owner mutex u).2 hheld
  -- a step that leaves the queue and the mutexes alone
  have hplain {m' : PoolMem n J} (hnext : poolNext u i s.mem = some (m', []))
      (ho : m'.owner = s.mem.owner) (hring : m'.tp.ring = s.mem.tp.ring)
      (hlen : m'.tp.len = s.mem.tp.len) (hpull : i ≠ .pull) (hunlock : i ≠ .unlock mutex) :
      ∃ m' new, poolExec u .next i s.mem = some (m', new) ∧
        (mutex ≠ .rwmutex → m'.tp.ring = s.mem.tp.ring ∧ m'.tp.len = s.mem.tp.len) ∧
        (m'.owner mutex = none ∨
          m'.owner mutex = some u ∧ ReadyToUnlock mutex u (s.replaced u m' new rest) ∧
            untilUnlock mutex (new ++ rest) < untilUnlock mutex (i :: rest)) := by
    refine ⟨m', [], hnext, fun _ => ⟨hring, hlen⟩, .inr ⟨by rw [ho, howner], ?_, ?_⟩⟩
    · rcases hready with ⟨queue, hq⟩ | ⟨rest', hc'⟩
      · exact .inl ⟨queue, hring ▸ hq.ring, hlen.trans hq.len⟩
      · exact absurd (List.cons.inj (hc.symm.trans hc')).1 hunlock
    · rw [untilUnlock_cons hpull, if_neg hunlock]
      exact Nat.lt_add_of_pos_left Nat.one_pos
  -- at a step of the queue it is whole
  have hwhole (hunlock : i ≠ .unlock mutex) : ∃ queue, s.mem.tp.Queue queue := by
    rcases hready with hq | ⟨rest', hc'⟩
    · exact hq
    · exact absurd (List.cons.inj (hc.symm.trans hc')).1 hunlock
  obtain ⟨q₁, hok, -⟩ := (hc ▸ hp.outlined u : PoolOutline (i :: rest) _ _).of_cons
  generalize hq : place u = q at hok hheld
  cases hok
  case lock => exact absurd rfl (hlock _)
  case unlock mutex' pc held task hg =>
    have hmine : s.mem.owner mutex' = some u := (hp.ok.owner mutex' u).2 (by simp [hq])
    refine ⟨s.mem.setOwner mutex' none, [], by simp [poolExec, poolNext, hmine],
      fun _ => ⟨rfl, rfl⟩, ?_⟩
    by_cases he : mutex = mutex'
    · exact .inl (by simp [he])
    · have hunlock : PoolInstr.unlock mutex' ≠ .unlock mutex := by simp [Ne.symm he]
      obtain ⟨queue, hqueue⟩ := hwhole hunlock
      refine .inr ⟨by simp [he, howner], .inl ⟨queue, hqueue⟩, ?_⟩
      rw [untilUnlock_cons (by simp), if_neg hunlock]
      exact Nat.lt_add_of_pos_left Nat.one_pos
  case whileV =>
    by_cases hv : s.mem.tp.v = 1
    · exact hplain (by simp [poolNext, hv]) rfl rfl rfl (by simp) (by simp)
    · refine ⟨s.mem.setOwner .semMutex none, [.lock .semMutex, .whileV],
        by simp [poolExec, poolNext, hv], fun _ => ⟨rfl, rfl⟩, .inl ?_⟩
      obtain rfl : mutex = .semMutex := List.mem_singleton.1 hheld
      simp
  case pull =>
    obtain rfl : mutex = .rwmutex := List.mem_singleton.1 hheld
    obtain ⟨queue, hqueue⟩ := hwhole (by simp)
    obtain ⟨jobP, post, tp', htake, hafter⟩ : ∃ jobP post tp',
        jobqueueTake s.mem.tp = some (jobP, post, tp') ∧
          (post = false ∨ ∃ queue, tp'.Queue queue) := by
      cases queue with
      | nil =>
        obtain ⟨tp', htake, -⟩ := hqueue.take_nil
        exact ⟨_, _, tp', htake, .inl rfl⟩
      | cons id queue =>
        obtain ⟨post, tp', htake, hqueue'⟩ := hqueue.take
        exact ⟨_, post, tp', htake, .inr ⟨queue, hqueue'⟩⟩
    refine ⟨{ s.mem with tp := tp' }, postCode post ++ threadJobCode jobP,
      by simp [poolExec, poolNext, htake], fun hne => absurd rfl hne, .inr ⟨howner, ?_, ?_⟩⟩
    · rcases hafter with rfl | hafter
      · exact .inr ⟨_, Threads.replaced_code_self ..⟩
      · exact .inl hafter
    · cases post <;>
        simp only [postCode, bsemPostCode, threadJobCode, untilUnlock, Bool.false_eq_true,
          if_false, if_true, reduceCtorEq, PoolInstr.unlock.injEq, List.nil_append,
          List.cons_append] <;> omega
  case push id =>
    obtain ⟨queue, hqueue⟩ := hwhole (by simp)
    obtain ⟨jobs, hjobs⟩ := hp.inv.jobs
    rcases hjobs.whole with hjobq | ⟨-, hb, -⟩
    · obtain ⟨tp', hput, hqueue'⟩ := hjobq.put (hjobs.notMem hc (Multiset.mem_singleton_self id))
      obtain rfl : mutex = .rwmutex := List.mem_singleton.1 hheld
      refine ⟨{ s.mem with tp := tp' }, [], by simp [poolExec, poolNext, hput],
        fun hne => absurd rfl hne, .inr ⟨howner, .inl ⟨_, hqueue'⟩, ?_⟩⟩
      rw [untilUnlock_cons (by simp), if_neg (by simp)]
      exact Nat.lt_add_of_pos_left Nat.one_pos
    · cases hqueue.ring.succ_head.symm.trans hb.succ
  all_goals first
    | exact hplain rfl rfl rfl rfl (by simp) (by simp)
    | simp at hheld

/-- Only threads that have a mutex move. -/
def OwnersMove (tr : List (PoolThreads n J × DestroyLabel n J × PoolThreads n J)) : Prop :=
  ∀ m ∈ tr, ∃ u mutex, m.2.1 = .step u .next ∧ m.1.mem.owner mutex = some u

/-- A step of a thread that has a mutex, with what it does to the path so far. -/
theorem ownersMove_cons {s' : PoolThreads n J} {mutex : PoolMutex}
    {tr : List (PoolThreads n J × DestroyLabel n J × PoolThreads n J)} (h : OwnersMove tr)
    (ho : s.mem.owner mutex = some u) : OwnersMove ((s, .step u .next, s') :: tr) := by
  intro m hm
  rcases List.mem_cons.1 hm with rfl | hm
  · exact ⟨u, mutex, rfl, ho⟩
  · exact h m hm

theorem destroyStep_next {m' : PoolMem n J} {new : List PoolInstr} (hc : s.code u = i :: rest)
    (h : poolExec u .next i s.mem = some (m', new)) :
    (destroySystem n J).step s (.step u .next) (s.replaced u m' new rest) := by
  simp [destroySystem, destroyStep, Threads.step, hc, h]

theorem Placed.exists_cons (hp : Placed s place) {mutex : PoolMutex}
    (hheld : mutex ∈ (place u).held) : ∃ i rest, s.code u = i :: rest := by
  cases hc : s.code u with
  | nil =>
    have hnil := (hc ▸ hp.outlined u : PoolOutline [] _ _).of_nil
    simp [hnil, lastPlace] at hheld
  | cons i rest => exact ⟨i, rest, rfl⟩

/-- Whoever locks a second mutex has the one of the queue, and locks the one of the semaphore. -/
theorem Placed.lock_held (hp : Placed s place) {mutex mutex' : PoolMutex}
    (hheld : mutex ∈ (place u).held) (hc : s.code u = .lock mutex' :: rest) :
    mutex' = .semMutex ∧ (place u).held = [.rwmutex] := by
  obtain ⟨q₁, hok, -⟩ := (hc ▸ hp.outlined u : PoolOutline (.lock mutex' :: rest) _ _).of_cons
  generalize place u = q at hok hheld
  cases hok with
  | lock hlock =>
    rcases hlock with rfl | h
    · cases hheld
    · exact h

/-- The owner of a mutex other than that of the queue releases it in steps of its own. -/
theorem Placed.release (hp : Placed s place) {mutex : PoolMutex} (hne : mutex ≠ .rwmutex)
    (hheld : mutex ∈ (place u).held) (hready : ReadyToUnlock mutex u s) :
    ∃ tr s' place', (destroySystem n J).Path s tr s' ∧ OwnersMove tr ∧ Placed s' place' ∧
      s'.mem.owner mutex = none ∧ (∀ v, v ≠ u → s'.code v = s.code v ∧ place' v = place v) ∧
      s'.mem.tp.ring = s.mem.tp.ring ∧ s'.mem.tp.len = s.mem.tp.len := by
  generalize hk : untilUnlock mutex (s.code u) = k
  induction k using Nat.strong_induction_on generalizing s place with
  | _ k ih =>
    obtain ⟨i, rest, hc⟩ := hp.exists_cons hheld
    have hlock (m : PoolMutex) : i ≠ .lock m := by
      rintro rfl
      have hrw := (hp.lock_held hheld hc).2
      rw [hrw] at hheld
      exact hne (List.mem_singleton.1 hheld)
    obtain ⟨m', new, hexec, hqueue, hnext⟩ := hp.owner_step hheld hc hlock hready
    have howner := (hp.ok.owner mutex u).2 hheld
    obtain ⟨q', -, hp', -⟩ := hp.exec hc hexec
    have hstep := destroyStep_next hc hexec
    have hothers (v : Option (Fin n)) (hv : v ≠ u) :
        (s.replaced u m' new rest).code v = s.code v ∧
          Function.update place u q' v = place v :=
      ⟨Threads.replaced_code_of_ne hv .., Function.update_of_ne hv ..⟩
    rcases hnext with hfree | ⟨howner', hready', hlt⟩
    · exact ⟨_, _, _, .single hstep, ownersMove_cons (by simp [OwnersMove]) howner, hp', hfree,
        hothers, hqueue hne⟩
    · have hheld' := (hp'.ok.owner mutex u).1 howner'
      obtain ⟨tr, s', place', hpath, hmove, hplaced, hfree, hsame, hring, hlen⟩ :=
        ih (untilUnlock mutex (new ++ rest)) (by rw [← hk, hc]; exact hlt) hp' hheld' hready'
          (by rw [Threads.replaced_code_self])
      refine ⟨_, s', place', hpath.cons hstep, ownersMove_cons hmove howner, hplaced, hfree,
        fun v hv => ?_, hring.trans (hqueue hne).1, hlen.trans (hqueue hne).2⟩
      exact ⟨(hsame v hv).1.trans (hothers v hv).1, (hsame v hv).2.trans (hothers v hv).2⟩

/-- A thread that waits for the semaphore's mutex finds it free, and the queue as it was. -/
theorem Placed.free_sem (hp : Placed s place) (hsem : .semMutex ∉ (place u).held)
    (hwhole : ∃ queue, s.mem.tp.Queue queue) :
    ∃ tr s' place', (destroySystem n J).Path s tr s' ∧ OwnersMove tr ∧ Placed s' place' ∧
      s'.mem.owner .semMutex = none ∧ s'.code u = s.code u ∧ place' u = place u ∧
      s'.mem.tp.ring = s.mem.tp.ring ∧ s'.mem.tp.len = s.mem.tp.len := by
  cases ho : s.mem.owner .semMutex with
  | none => exact ⟨[], s, place, .nil, by simp [OwnersMove], hp, ho, rfl, rfl, rfl, rfl⟩
  | some v =>
    have hheld := (hp.ok.owner _ v).1 ho
    have hv : u ≠ v := fun he => hsem (he ▸ hheld)
    obtain ⟨tr, s', place', hpath, hmove, hplaced, hfree, hsame, hring, hlen⟩ :=
      hp.release (by simp) hheld (.inl hwhole)
    exact ⟨tr, s', place', hpath, hmove, hplaced, hfree, (hsame u hv).1, (hsame u hv).2, hring,
      hlen⟩

theorem ownersMove_append {tr tr' : List (PoolThreads n J × DestroyLabel n J × PoolThreads n J)}
    (h : OwnersMove tr) (h' : OwnersMove tr') : OwnersMove (tr ++ tr') := by
  intro m hm
  rcases List.mem_append.1 hm with hm | hm
  · exact h m hm
  · exact h' m hm

/-- The owner of the queue's mutex releases it, after the owner of the semaphore's has released
that. -/
theorem Placed.release_queue (hp : Placed s place) (hheld : .rwmutex ∈ (place u).held)
    (hready : ReadyToUnlock .rwmutex u s) :
    ∃ tr s', (destroySystem n J).Path s tr s' ∧ OwnersMove tr ∧
      s'.mem.owner .rwmutex = none := by
  generalize hk : untilUnlock .rwmutex (s.code u) = k
  induction k using Nat.strong_induction_on generalizing s place with
  | _ k ih =>
    obtain ⟨i, rest, hc⟩ := hp.exists_cons hheld
    by_cases hlock : ∃ m, i = .lock m
    · obtain ⟨mutex', rfl⟩ := hlock
      obtain ⟨rfl, hrw⟩ := hp.lock_held hheld hc
      obtain ⟨queue, hq⟩ : ∃ queue, s.mem.tp.Queue queue := by
        rcases hready with hq | ⟨rest', hc'⟩
        · exact hq
        · cases hc.symm.trans hc'
      obtain ⟨tr, s₁, place₁, hpath, hmove, hp₁, hfree, hcode, hplace, hring, hlen⟩ :=
        hp.free_sem (u := u) (by simp [hrw]) ⟨queue, hq⟩
      have hc₁ := hcode.trans hc
      have hheld₁ : .rwmutex ∈ (place₁ u).held := by rw [hplace]; exact hheld
      have hexec : poolExec u .next (.lock .semMutex) s₁.mem =
          some (s₁.mem.setOwner .semMutex (some u), []) := by simp [poolExec, poolNext, hfree]
      obtain ⟨q', -, hp', -⟩ := hp₁.exec hc₁ hexec
      have howner := (hp₁.ok.owner _ u).2 hheld₁
      obtain ⟨tr', s', hpath', hmove', hfree'⟩ :=
        ih (untilUnlock .rwmutex rest) (by rw [← hk, hc, untilUnlock_cons (by simp)]; simp) hp'
          ((hp'.ok.owner _ u).1 (by simpa using howner))
          (.inl ⟨queue, hring ▸ hq.ring, hlen.trans hq.len⟩) (by simp)
      exact ⟨_, s', hpath.trans (hpath'.cons (destroyStep_next hc₁ hexec)),
        ownersMove_append hmove (ownersMove_cons hmove' howner), hfree'⟩
    · simp only [not_exists] at hlock
      obtain ⟨m', new, hexec, -, hnext⟩ := hp.owner_step hheld hc hlock hready
      have howner := (hp.ok.owner _ u).2 hheld
      obtain ⟨q', -, hp', -⟩ := hp.exec hc hexec
      have hstep := destroyStep_next hc hexec
      rcases hnext with hfree | ⟨howner', hready', hlt⟩
      · exact ⟨_, _, .single hstep, ownersMove_cons (by simp [OwnersMove]) howner, hfree⟩
      · obtain ⟨tr, s', hpath, hmove, hfree⟩ :=
          ih (untilUnlock .rwmutex (new ++ rest)) (by rw [← hk, hc]; exact hlt) hp'
            ((hp'.ok.owner _ u).1 howner') hready' (by rw [Threads.replaced_code_self])
        exact ⟨_, s', hpath.cons hstep, ownersMove_cons hmove howner, hfree⟩

/-- In every run, while the queue has its head, whatever mutex a thread waits for is free again
after steps of threads that have a mutex. -/
theorem mutex_free (h : (destroySystem n J).Reach s) (hq : (s.mem.tp.ring .jobHead).succ ≠ none)
    (mutex : PoolMutex) :
    ∃ tr s', (destroySystem n J).Path s tr s' ∧ OwnersMove tr ∧ s'.mem.owner mutex = none := by
  obtain ⟨place, hp⟩ := placed_of_reach h
  have hwhole : ∃ queue, s.mem.tp.Queue queue := by
    obtain ⟨queue, hjobs⟩ := hp.inv.jobs
    rcases hjobs.whole with hwhole | ⟨-, hb, -⟩
    · exact ⟨queue, hwhole⟩
    · exact absurd hb.succ hq
  cases ho : s.mem.owner mutex with
  | none => exact ⟨[], s, .nil, by simp [OwnersMove], ho⟩
  | some u =>
    have hheld := (hp.ok.owner mutex u).1 ho
    by_cases hm : mutex = .rwmutex
    · subst hm
      exact hp.release_queue hheld (.inl hwhole)
    · obtain ⟨tr, s', -, hpath, hmove, -, hfree, -⟩ := hp.release hm hheld (.inl hwhole)
      exact ⟨tr, s', hpath, hmove, hfree⟩

/-- The client has the mutexes of the queue and of the semaphore, in `thpool_add_work`. -/
theorem mutex_free_adding : ∃ s : PoolThreads 1 Unit, (destroySystem 1 Unit).Reach s ∧
    s.mem.owner .rwmutex = some none ∧ s.mem.owner .semMutex = some none ∧
    ∃ tr s', (destroySystem 1 Unit).Path s tr s' ∧ OwnersMove tr ∧
      s'.mem.owner .rwmutex = none := by
  have hrun : ((stepsOf (some 0) 4 ++ stepsOf none 1 ++ [DestroyLabel.step none (.addWork ())] ++
      stepsOf none 4).foldlM destroyStep (destroyInit 1 Unit)).any
      (fun s : PoolThreads 1 Unit => s.mem.owner .rwmutex = some none ∧
        s.mem.owner .semMutex = some none ∧ (s.mem.tp.ring .jobHead).succ ≠ none) = true := by
    decide +kernel
  obtain ⟨s, hfold, hobs⟩ := (Option.any_eq_true _ _).1 hrun
  obtain ⟨hrw, hsem, hhead⟩ := of_decide_eq_true hobs
  obtain ⟨tr, hpath, -⟩ :=
    LTS.Path.of_foldlM (S := destroySystem 1 Unit) (fun _ _ _ hst => hst) hfold
  have hr : (destroySystem 1 Unit).Reach s := ⟨tr, _, rfl, hpath⟩
  exact ⟨s, hr, hrw, hsem, mutex_free hr hhead .rwmutex⟩

end Nowra
