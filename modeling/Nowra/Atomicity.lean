import Nowra.Atomic

/-!
# The code of a pool does what the atomic steps do

The relation of `Atomic` along whole runs (`PoolSim`), from the end of `thpool_init` through the
clean-up. The atomic steps wait with the clean-up until the code sets the length of the queue.

So every run of the code has a run in atomic steps in which the same workers end the same jobs in
the same order (`destroySystem_refines`), and the counts, the flag and the value of the semaphore
agree all along. What holds of the pool in atomic steps holds of its code : as long as no pull was
from the empty queue and the flag stays set, a queued job has a wake-up (`wakeup_of_run`).
-/

namespace Nowra

variable {n : ℕ} {J : Type} {t : Option (Fin n)} {m m' : PoolMem n J} {q q' : Place}
  {place : Option (Fin n) → Place} {s s' : PoolThreads n J}

/-- The thread has not been woken, and adds no job. -/
def Place.Early (q : Place) : Prop :=
  q.task = .idle ∧ (q.pc = .worker .start ∨ q.pc = .worker .loop ∨ q.pc = .worker .wait ∨
    q.pc = .worker .leave ∨ q.pc = .worker .exited ∨ q.pc = .caller .making)

/-- While the semaphore is down nobody is woken, unless the caller makes the pool public. -/
theorem PoolMove.early (h : PoolMove t m q m' q') (hv : m.tp.v = 0) (hq : q.Early) :
    q'.pc = .caller .live ∨ q'.Early ∧ m'.tp.v = 0 := by
  obtain ⟨htask, hpc⟩ := hq
  cases h
  case read => exact .inr ⟨⟨htask, hpc⟩, hv⟩
  case lock | unlock => exact .inr ⟨⟨htask, hpc⟩, hv⟩
  case loop =>
    refine .inr ⟨⟨rfl, ?_⟩, hv⟩
    split <;> simp
  case woken hone => rw [hv] at hone; cases hone
  case newJob hnew => rcases hnew with rfl | ⟨jobP, rfl⟩ <;> simp at hpc
  all_goals first
    | (simp at hpc; done)
    | (simp at htask; done)
    | exact .inl rfl
    | exact .inr ⟨⟨rfl, by simp⟩, hv⟩

/-- The caller does not go back. -/
theorem PoolMove.making (h : PoolMove t m q m' q') (hq' : q'.pc = .caller .making) :
    q.pc = .caller .making := by
  cases h
  case loop | check => split at hq' <;> cases hq'
  all_goals first
    | exact hq'
    | cases hq'

/-- What the caller does while it cleans up. -/
theorem PoolMove.clears (h : PoolMove t m q m' q') (hq : q.pc.Clears) :
    m'.tp.numThreadsAlive = m.tp.numThreadsAlive ∧ m'.keepalive = m.keepalive ∧
      (q'.pc = q.pc ∨ q.pc = .caller .clearing ∧ q'.pc = .caller .freed) := by
  cases h
  case pull hr | pullPost hr | clearPull hr =>
    simp_all [PoolPc.Clears, (jobqueueTake_frame hr).1]
  case push hr => exact ⟨(jobqueuePut_frame hr).1, rfl, .inl rfl⟩
  all_goals simp_all [PoolPc.Clears, PoolMem.setOwner, PoolMem.newJob]

/-- The caller runs no job. -/
theorem run_notMem_caller {code : List PoolInstr} {jobP : Node} (h : PoolOutline code q q')
    (hq : q.pc.isCaller = true) : .run jobP ∉ code := by
  induction h with
  | nil => simp
  | @cons i code q q₁ q₂ hi _ ih =>
    intro hmem
    rcases List.mem_cons.1 hmem with rfl | hmem
    · cases hi
      cases hq
    · exact ih (hi.isCaller.trans hq) hmem

/-! ## Whole runs -/

/-- The pool in atomic steps where the code has taken it. -/
structure PoolSim (s : PoolThreads n J) (place : Option (Fin n) → Place)
    (c : Bool × Life n J Empty) : Prop where
  placed : Placed s place
  flag : c.1 = s.mem.keepalive
  pc : ∀ pc, (place none).pc = .caller pc → c.2.pc = pc.toLife n
  alive : c.2.pool.tp.numThreadsAlive = s.mem.tp.numThreadsAlive
  making : (place none).pc = .caller .making → s.mem.tp.v = 0 ∧ ∀ u, (place u).Early
  mirrors : ¬(place none).pc.Clears →
    ∃ ids, Named s.mem place ids ∧ Mirrors s.mem place c.2.pool ids
  cleared : (place none).pc.Clears → s.mem.tp.numThreadsAlive = 0
  queue : (place none).pc = .caller .clearing → ∃ queue, c.2.pool.tp.Queue queue

variable {c : Bool × Life n J Empty}

/-- The head of the queue is no job. -/
theorem PoolSim.jobHead (h : PoolSim s place c) : s.mem.tp.mem .jobHead = none := by
  obtain ⟨queue, hjobs⟩ := h.placed.inv.jobs
  exact hjobs.jobHead

theorem PoolSim.paired (h : PoolSim s place c) (hclears : ¬(place none).pc.Clears) :
    ∃ ids, Paired s.mem place c.2 ids := by
  obtain ⟨ids, hN, hM⟩ := h.mirrors hclears
  exact ⟨ids, h.placed.ok, h.placed.isCaller, hN, hM, h.pc⟩

/-- `thpool_init` up to the loop that waits for the workers. -/
theorem lifeSystem_made (n : ℕ) (J : Type) (k : ℕ) (hk : k ≤ n) :
    ∃ tr, ((lifeSystem n J).within fun c => c.1 = true).Run tr
      (true, { (lifeComp n J Empty).init with pc := .making k }) ∧
        LTS.observed lifeRan tr = [] := by
  induction k with
  | zero =>
    have hst : (lifeSystem n J).step (false, (lifeComp n J Empty).init) (.inl .call)
        (true, { (lifeComp n J Empty).init with pc := .making 0 }) := rfl
    exact ⟨_, ⟨_, rfl, .single ⟨hst, rfl⟩⟩, rfl⟩
  | succ k ih =>
    obtain ⟨tr, hrun, hshown⟩ := ih (Nat.le_of_succ_le hk)
    have hst : (lifeSystem n J).step (true, { (lifeComp n J Empty).init with pc := .making k })
        (.inl .call) (true, { (lifeComp n J Empty).init with pc := .making (k + 1) }) := by
      simp [lifeSystem, lifeStep, callStep, Nat.lt_of_succ_le hk]
    refine ⟨_, hrun.append (.single ⟨hst, rfl⟩), ?_⟩
    rw [LTS.observed_append, hshown]
    rfl

theorem poolSim_init : PoolSim (destroyInit n J)
    (fun t => ⟨t.elim (.caller .making) fun _ => .worker .start, [], .idle⟩)
    (true, { (lifeComp n J Empty).init with pc := .making n }) where
  placed := placed_init
  flag := rfl
  pc := by
    rintro pc ⟨rfl⟩
    rfl
  alive := rfl
  making _ := ⟨rfl, fun u => ⟨rfl, by cases u <;> simp⟩⟩
  mirrors _ := by
    refine ⟨[], ⟨.nil, by simp, by simp [Task.newjob], by simp [Task.newjob], ?_⟩, ?_⟩
    · rintro u id (hid | hid) <;> cases u <;> simp at hid
    · refine ⟨?_, rfl, rfl, rfl, ?_, rfl, by simp⟩
      · rintro w pc ⟨rfl⟩
        rfl
      · have hqueue : (destroyInit n J).mem.tp.Queue [] := ⟨isRing_ringInit .., rfl⟩
        have hqueue' : (poolMade n J).tp.Queue (([] : List ℕ).map ([] : List ℕ).idxOf) :=
          ⟨isRing_ringInit .., rfl⟩
        exact .whole hqueue hqueue' (by simp) rfl
  cleared h := by simp [PoolPc.Clears] at h
  queue h := by cases h

/-- The clean-up of a whole queue. -/
theorem thpoolJobqueueClear_queue {tp : Thpool J} {queue : List ℕ} (h : tp.Queue queue) :
    ∃ tp', thpoolJobqueueClear queue.length tp = some tp' ∧
      tp'.numThreadsAlive = tp.numThreadsAlive := by
  induction queue generalizing tp with
  | nil => exact ⟨_, rfl, rfl⟩
  | cons id queue ih =>
    obtain ⟨post, tp₁, htake, hq⟩ := h.take
    have hpull : thpoolJobqueuePull tp =
        some (.job id, if post then thpoolBsemPost tp₁ else tp₁) := by
      simp [thpoolJobqueuePull_eq_map, htake]
    have hq' : Thpool.Queue { (if post then thpoolBsemPost tp₁ else tp₁) with
        mem := Function.update (if post then thpoolBsemPost tp₁ else tp₁).mem (.job id) none }
          queue := by
      cases post <;> exact ⟨hq.ring, hq.len⟩
    obtain ⟨tp', hclear, halive⟩ := ih hq'
    refine ⟨tp', ?_, halive.trans ?_⟩
    · simp only [List.length_cons, thpoolJobqueueClear, hpull, Option.bind_eq_bind,
        Option.bind_some]
      exact hclear
    · cases post <;> exact (jobqueueTake_frame htake).1

variable {choice : PoolChoice J} {i : PoolInstr} {rest new : List PoolInstr}

/-- What follows a step of the code in atomic steps. -/
def PoolSim.Next (s : PoolThreads n J) (t : Option (Fin n)) (choice : PoolChoice J)
    (c : Bool × Life n J Empty) (s' : PoolThreads n J) : Prop :=
  LTS.Matches (lifeSystem n J) (fun s c => ∃ place, PoolSim s place c) lifeRan
    (ran (s, .step t choice, s')) s' c

/-- Until `thpool_init` returns the workers stay where they are, with the semaphore down. -/
theorem PoolSim.making_step (h : PoolSim s place c) (hmove : PoolMove t s.mem (place t) m' q')
    (hplaced : Placed (s.replaced t m' new rest) (Function.update place t q'))
    (hmaking : (Function.update place t q' none).pc = .caller .making) :
    m'.tp.v = 0 ∧ ∀ u, (Function.update place t q' u).Early := by
  have hbefore : (place none).pc = .caller .making := by
    by_cases ht : none = t
    · subst ht
      rw [Function.update_self] at hmaking
      exact hmove.making hmaking
    · rwa [Function.update_of_ne ht] at hmaking
  obtain ⟨hv, hearly⟩ := h.making hbefore
  rcases hmove.early hv (hearly t) with hlive | ⟨hq', hv'⟩
  · have hcaller := hplaced.isCaller t
    rw [Function.update_self, hlive] at hcaller
    cases t with
    | none =>
      rw [Function.update_self, hlive] at hmaking
      cases hmaking
    | some w => cases hcaller
  · exact ⟨hv', (Function.forall_update_iff place fun _ q => q.Early).2
      ⟨hq', fun u _ => hearly u⟩⟩

/-- A step before the queue is cleared, and after which it is not. -/
theorem PoolSim.step_live (h : PoolSim s place c) (hclears : ¬(place none).pc.Clears)
    (hmove : PoolMove t s.mem (place t) m' q')
    (hplaced : Placed (s.replaced t m' new rest) (Function.update place t q'))
    (hran : ran (s, .step t choice, s.replaced t m' new rest) = endedBy t s.mem (place t) q')
    (hclears' : ¬(Function.update place t q' none).pc.Clears) :
    PoolSim.Next s t choice c (s.replaced t m' new rest) := by
  obtain ⟨ids, hpaired⟩ := h.paired hclears
  obtain ⟨c', ids', hsteps, hN, hM, hpc⟩ := hpaired.move hmove hplaced.ok h.jobHead
    hclears hclears' fun hmaking u => ((h.making hmaking).2 u).1
  have hsim : PoolSim (s.replaced t m' new rest) (Function.update place t q')
      (m'.keepalive, c') := by
    refine ⟨hplaced, rfl, hpc, hM.alive, ?_, fun _ => ⟨ids', hN, hM⟩,
      fun hc => absurd hc hclears', fun hc => absurd (.inl hc) hclears'⟩
    exact h.making_step hmove hplaced
  rw [← hran] at hsteps
  rcases hsteps with ⟨hnil, hk, rfl⟩ | ⟨a, hst, hone⟩
  · refine .inl ⟨hnil, Function.update place t q', ?_⟩
    rwa [hk, ← h.flag] at hsim
  · rw [← h.flag] at hst hone
    exact .inr ⟨.inl a, _, hst, hone, _, hsim⟩

/-- The read that finds no worker alive leaves a whole queue to clear. -/
theorem PoolSim.step_noneAlive (h : PoolSim s place c) (hclears : ¬(place none).pc.Clears)
    (hmove : PoolMove t s.mem (place t) m' q')
    (hplaced : Placed (s.replaced t m' new rest) (Function.update place t q'))
    (hran : ran (s, .step t choice, s.replaced t m' new rest) = endedBy t s.mem (place t) q')
    (hclears' : (Function.update place t q' none).pc.Clears) :
    PoolSim.Next s t choice c (s.replaced t m' new rest) := by
  obtain rfl : t = none := by
    by_contra ht
    rw [Function.update_of_ne (Ne.symm ht)] at hclears'
    exact hclears hclears'
  have hshown : ran (s, .step none choice, s.replaced none m' new rest) = [] := hran
  rw [Function.update_self] at hclears'
  generalize hq : place none = q at hmove
  cases hmove
  case noneAlive halive =>
    obtain ⟨ids, hN, hM⟩ := h.mirrors hclears
    refine .inl ⟨hshown, _, hplaced, h.flag, ?_, h.alive, ?_, ?_, fun _ => halive, fun _ => ?_⟩
    · rintro pc hpc
      rw [Function.update_self] at hpc
      cases hpc
      exact h.pc .poll (congrArg Place.pc hq)
    · intro hpc
      rw [Function.update_self] at hpc
      cases hpc
    · intro hnot
      rw [Function.update_self] at hnot
      exact absurd (.inl rfl) hnot
    · cases hM.queue with
      | @whole _ before _ hwhole => exact ⟨_, hwhole⟩
      | broken hb =>
        -- whoever has pulled the head would still be at it
        obtain ⟨queue, hjobs⟩ := hplaced.inv.jobs
        rcases hjobs.whole with hqueue | ⟨-, -, u, hu⟩
        · cases hqueue.ring.succ_head.symm.trans hb.succ
        · cases u with
          | none =>
            exact (run_notMem_caller (hplaced.outlined none) (by simp [PoolPc.isCaller]) hu).elim
          | some w =>
            have hleft := hplaced.left_of_clears (by rw [Function.update_self]; exact .inl rfl) w
            rcases hleft with hl | hl <;> rw [hl] at hu <;> simp at hu
  case loop | check => split at hclears' <;> simp [PoolPc.Clears] at hclears'
  case read => exact (hclears (by rw [hq]; exact hclears')).elim
  case lock | unlock => exact (hclears (by rw [hq]; exact hclears')).elim
  case newJob | push | postPut => exact (hclears (by rw [hq]; exact hclears')).elim
  all_goals first
    | (simp [PoolPc.Clears] at hclears'; done)
    | exact (hclears (by rw [hq]; exact .inl rfl)).elim
    | exact (hclears (by rw [hq]; exact .inr rfl)).elim

/-- A step of a worker after it has left. -/
theorem PoolSim.step_left (h : PoolSim s place c) {w : Fin n} (hc : s.code (some w) = i :: rest)
    (hexec : poolExec (some w) choice i s.mem = some (m', new)) (hclears : (place none).pc.Clears)
    (hplaced : Placed (s.replaced (some w) m' new rest) (Function.update place (some w) q')) :
    PoolSim.Next s (some w) choice c (s.replaced (some w) m' new rest) := by
  have hnone : Function.update place (some w) q' none = place none :=
    Function.update_of_ne (by simp) ..
  obtain ⟨rfl, rfl⟩ : i = .unlock .thcountLock ∧ rest = [] := by
    have hleft := h.placed.left_of_clears hclears w
    rw [hc] at hleft
    rcases hleft with hl | hl
    · exact List.cons.inj hl
    · cases hl
  have hnext := poolExec_certain hexec trivial
  simp only [poolNext] at hnext
  split at hnext <;> cases hnext
  have hshown : ran (s, .step (some w) choice,
      s.replaced (some w) (s.mem.setOwner .thcountLock none) [] []) = [] := by
    cases choice <;> simp [ran, hc]
  refine .inl ⟨hshown, _, hplaced, h.flag, ?_, h.alive, ?_, ?_, fun _ => h.cleared hclears, ?_⟩ <;>
    rw [hnone]
  · exact h.pc
  · intro hpc
    rw [hpc] at hclears
    simp [PoolPc.Clears] at hclears
  · exact fun hnot => absurd hclears hnot
  · exact h.queue

/-- A step of the caller while it cleans up. -/
theorem PoolSim.step_clears (h : PoolSim s place c) (hclears : (place none).pc.Clears)
    (hmove : PoolMove none s.mem (place none) m' q')
    (hplaced : Placed (s.replaced none m' new rest) (Function.update place none q')) :
    PoolSim.Next s none choice c (s.replaced none m' new rest) := by
  obtain ⟨halive, hk, hpc⟩ := hmove.clears hclears
  have hzero := h.cleared hclears
  rcases hpc with hpc | ⟨hbefore, hafter⟩
  · refine .inl ⟨rfl, _, hplaced, h.flag.trans hk.symm, ?_, h.alive.trans halive.symm, ?_, ?_,
      fun _ => halive.trans hzero, ?_⟩ <;> rw [Function.update_self, hpc]
    · exact h.pc
    · intro hmaking
      rw [hmaking] at hclears
      simp [PoolPc.Clears] at hclears
    · exact fun hnot => absurd hclears hnot
    · exact h.queue
  · obtain ⟨queue, hqueue⟩ := h.queue hbefore
    obtain ⟨tp, hclear, halive'⟩ := thpoolJobqueueClear_queue hqueue
    have hpoll := h.pc _ hbefore
    have hst : (lifeSystem n J).step c (.inl .call) (c.1,
        { c.2 with pc := .freed, pool := { c.2.pool with tp := tp } }) := by
      have hcoarse : c.2.pool.tp.numThreadsAlive = 0 := h.alive.trans hzero
      have hlen : c.2.pool.tp.len = queue.length := hqueue.len
      simp [lifeSystem, lifeStep, callStep, hpoll, CallerPc.toLife, hcoarse, hlen, hclear]
    refine .inr ⟨_, _, hst, rfl, _, hplaced, h.flag.trans hk.symm, ?_, ?_, ?_, ?_, fun _ =>
      halive.trans hzero, ?_⟩
    · intro pc hpc
      rw [Function.update_self, hafter] at hpc
      cases hpc
      rfl
    · exact halive'.trans (h.alive.trans halive.symm)
    · intro hpc
      rw [Function.update_self, hafter] at hpc
      cases hpc
    · intro hnot
      rw [Function.update_self, hafter] at hnot
      exact absurd (.inr rfl) hnot
    · intro hpc
      rw [Function.update_self, hafter] at hpc
      cases hpc

/-- The atomic steps follow every step of the code. -/
theorem PoolSim.step (h : PoolSim s place c) (hst : destroyStep s (.step t choice) = some s') :
    PoolSim.Next s t choice c s' := by
  obtain ⟨i, rest, m', new, hc, hexec, rfl⟩ := Threads.exists_exec hst
  obtain ⟨q', hmove, hplaced, hfinish⟩ := h.placed.exec hc hexec
  have hran : ran (s, .step t choice, s.replaced t m' new rest) = endedBy t s.mem (place t) q' :=
    ran_eq_endedBy hc hfinish
  by_cases hclears : (place none).pc.Clears
  · cases t with
    | none => exact h.step_clears hclears hmove hplaced
    | some w => exact h.step_left hc hexec hclears hplaced
  · by_cases hclears' : (Function.update place t q' none).pc.Clears
    · exact h.step_noneAlive hclears hmove hplaced hran hclears'
    · exact h.step_live hclears hmove hplaced hran hclears'

theorem destroySystem_simulation (n : ℕ) (J : Type) : LTS.Simulation (destroySystem n J)
    (lifeSystem n J) (fun s c => ∃ place, PoolSim s place c) ran lifeRan where
  init s hs := by
    obtain rfl : s = destroyInit n J := hs
    obtain ⟨tr, hrun, hshown⟩ := lifeSystem_made n J n le_rfl
    exact ⟨tr, _, hrun.of_within, hshown, _, poolSim_init⟩
  step s a s' c hR hst := by
    obtain ⟨place, h⟩ := hR
    cases a with
    | step t choice => exact h.step hst
    | keepalive b =>
      obtain rfl : { s with mem := { s.mem with keepalive := b } } = s' := Option.some.inj hst
      refine .inr ⟨.inr b, (b, c.2), rfl, rfl, place, h.placed.keepalive b, rfl, h.pc, h.alive,
        h.making, fun hclears => ?_, h.cleared, h.queue⟩
      obtain ⟨ids, hN, hM⟩ := h.mirrors hclears
      exact ⟨ids, ⟨hN.nodup, hN.lt, hN.adds, hN.inj, hN.hand⟩,
        ⟨hM.thread, hM.alive, hM.working, hM.v, hM.queue, hM.next, hM.mem⟩⟩

/-! ## What agrees -/

/-- What the atomic steps have taken is what the code has. The queue is only complete while nobody
is at it, and once the workers have left it is cleared in one step and the semaphore is reset. -/
structure Agree (s : PoolThreads n J) (c : Bool × Life n J Empty) : Prop where
  keepalive : s.mem.keepalive = c.1
  numThreadsAlive : s.mem.tp.numThreadsAlive = c.2.pool.tp.numThreadsAlive
  numThreadsWorking : s.mem.tp.numThreadsAlive ≠ 0 →
    s.mem.tp.numThreadsWorking = c.2.pool.tp.numThreadsWorking
  v : s.mem.tp.numThreadsAlive ≠ 0 → s.mem.tp.v = c.2.pool.tp.v
  len : s.mem.tp.numThreadsAlive ≠ 0 → s.mem.owner .rwmutex = none →
    (s.mem.tp.ring .jobHead).succ ≠ none → s.mem.tp.len = c.2.pool.tp.len

/-- While nobody is at the queue it is the one of the atomic steps. -/
theorem Mirrors.len {pool : Pool n J} {ids : List ℕ} (h : Mirrors m place pool ids)
    (hrw : m.owner .rwmutex = none) (hhead : (m.tp.ring .jobHead).succ ≠ none) :
    m.tp.len = pool.tp.len := by
  have hqueue := h.queue
  rw [queuePart, hrw, Option.bind_none] at hqueue
  cases hqueue with
  | whole hq hq' _ hpart =>
    obtain rfl := hpart
    rw [hq.len, hq'.len, List.length_map]
  | broken hb => exact absurd hb.succ hhead

theorem PoolSim.agree (h : PoolSim s place c) : Agree s c := by
  refine ⟨h.flag.symm, h.alive.symm, fun halive => ?_, fun halive => ?_, fun halive hrw hhead => ?_⟩
  all_goals obtain ⟨ids, -, hM⟩ := h.mirrors fun hclears => halive (h.cleared hclears)
  · exact hM.working.symm
  · exact hM.v.symm
  · exact hM.len hrw hhead

/-- Whatever the order of its instructions, a pool ends the jobs that it could end in atomic steps,
by the same workers and in the same order, and what others can see of it agrees. -/
theorem destroySystem_refines {tr : List (PoolThreads n J × DestroyLabel n J × PoolThreads n J)}
    (h : (destroySystem n J).Run tr s) : ∃ tr' c, (lifeSystem n J).Run tr' c ∧
      LTS.observed lifeRan tr' = LTS.observed ran tr ∧ Agree s c := by
  obtain ⟨tr', c, hrun, hshown, place, hsim⟩ := (destroySystem_simulation n J).run h
  exact ⟨tr', c, hrun, hshown, hsim.agree⟩

/-- One worker that has run and freed the job that the client added. -/
theorem destroySystem_refines_freed :
    ∃ (tr : List (PoolThreads 1 Unit × DestroyLabel 1 Unit × PoolThreads 1 Unit))
      (s : PoolThreads 1 Unit), (destroySystem 1 Unit).Run tr s ∧ s.mem.freedJobs = [0] ∧
      ∃ tr' c, (lifeSystem 1 Unit).Run tr' c ∧
        LTS.observed lifeRan tr' = LTS.observed ran tr ∧ Agree s c := by
  have hrun : ((stepsOf (some 0) 4 ++ stepsOf none 1 ++ [DestroyLabel.step none (.addWork ())] ++
      stepsOf none 7 ++ stepsOf (some 0) 15).foldlM destroyStep (destroyInit 1 Unit)).any
      (fun s : PoolThreads 1 Unit => s.mem.freedJobs = [0]) = true := by
    decide +kernel
  obtain ⟨s, hfold, hobs⟩ := (Option.any_eq_true _ _).1 hrun
  obtain ⟨tr, hpath, -⟩ :=
    LTS.Path.of_foldlM (S := destroySystem 1 Unit) (fun _ _ _ hst => hst) hfold
  have hr : (destroySystem 1 Unit).Run tr s := ⟨_, rfl, hpath⟩
  exact ⟨tr, s, hr, of_decide_eq_true hobs, destroySystem_refines hr⟩

/-! ## No lost wake-up -/

/-- In atomic steps : the pool has not been destroyed, and a queued job has a wake-up unless the
head of the queue has been pulled. -/
structure Kept (c : Bool × Life n J Empty) : Prop where
  flag : c.2.pc = .notMade ∨ c.1 = true
  used : c.2.pc.destroyed = false
  woken : c.2.pool.Woken ∨ c.2.pool.tp.Broken

theorem Pool.broken_step {pool pool' : Pool n J} {a : PoolLabel n J} (h : pool.tp.Broken)
    (hst : poolStep pool a = some pool') : pool'.tp.Broken := by
  cases a with
  | addWork job =>
    obtain ⟨⟨id, tp⟩, hadd, -⟩ := Option.map_eq_some_iff.1 hst
    obtain ⟨tp', hpush, -⟩ := Option.bind_eq_some_iff.1 hadd
    have hbroken : Thpool.Broken { pool.tp with
        mem := Function.update pool.tp.mem (.job pool.tp.nextJob) (some job)
        nextJob := pool.tp.nextJob + 1 } := ⟨h.succ, h.pred⟩
    rw [thpoolJobqueuePush_eq_map, hbroken.put] at hpush
    cases hpush
  | thread w =>
    obtain ⟨pc, tp, hmove, rfl⟩ := exists_move hst
    generalize pool.thread w = pc₀ at hmove
    cases hmove with
    | pull hpull =>
      rw [thpoolJobqueuePull_eq_map, h.take] at hpull
      cases hpull
    | start | loop | wait | check | count | run | free | uncount | leave => exact ⟨h.succ, h.pred⟩

/-- A worker that pulls from the empty queue has its head in hand. -/
theorem Pool.Inv.broken {pool pool' : Pool n J} {a : PoolLabel n J} (h : pool.Inv)
    (hok : ¬pool.PullOk a) (hst : poolStep pool a = some pool') :
    pool'.tp.Broken ∧ ∃ w, pool'.thread w = .run .jobHead := by
  cases a with
  | addWork job => exact absurd trivial hok
  | thread w =>
    have hempty : pool.thread w = .pull ∧ pool.tp.len = 0 := by
      by_contra hne
      refine hok (h.pullOk fun i hi hpc => ?_)
      cases hi
      exact Nat.one_le_iff_ne_zero.2 fun hlen => hne ⟨hpc, hlen⟩
    obtain ⟨queue, hring, hlen, -⟩ := h.queue
    obtain rfl := List.length_eq_zero_iff.1 (hlen.symm.trans hempty.2)
    have hqueue : pool.tp.Queue [] := ⟨hring, hlen⟩
    obtain ⟨tp, htake, hbroken⟩ := hqueue.take_nil
    obtain ⟨pc, tp', hmove, rfl⟩ := exists_move hst
    rw [hempty.1] at hmove
    cases hmove with
    | pull hpull =>
      rw [thpoolJobqueuePull_eq_map, htake] at hpull
      cases hpull
      exact ⟨hbroken, w, by simp⟩

theorem Pool.Woken.step_or_broken {pool pool' : Pool n J} {a : PoolLabel n J} (h : pool.Woken)
    (hst : poolStep pool a = some pool') : pool'.Woken ∨ pool'.tp.Broken := by
  by_cases hok : pool.PullOk a
  · exact .inl (h.step hok hst)
  · exact .inr (h.inv.broken hok hst).1

/-- A step with the flag set and still set after it. -/
theorem LifeMove.used {c c' : Life n J Empty} {a : LifeLabel n J Empty} {k : Bool}
    (h : LifeMove k c a true c') (hk : c.pc = .notMade ∨ k = true) (hc : c.pc.destroyed = false) :
    c'.pc.destroyed = false ∧ (c'.pool = poolMade n J ∨ c'.pool = c.pool ∨
      ∃ a', poolStep c.pool a' = some c'.pool) := by
  generalize hset : true = k' at h
  cases h with
  | init => exact ⟨rfl, .inl rfl⟩
  | create | ready => exact ⟨rfl, .inr (.inl rfl)⟩
  | spin | wait => exact ⟨hc, .inr (.inl rfl)⟩
  | destroy => cases hset
  | alive hpc | cleanup hpc | postAll hpc =>
    rw [hpc] at hc
    cases hc
  | addWork _ hst => exact ⟨hc, .inr (.inr ⟨_, hst⟩)⟩
  | thread hpc hst =>
    subst hset
    exact ⟨hc, .inr (.inr ⟨_, poolStep_of_move rfl (threadStep_iff.1 hst)⟩)⟩

theorem Kept.step {c c' : Bool × Life n J Empty} {a : LifeLabel n J Empty ⊕ Bool} (h : Kept c)
    (hst : ((lifeSystem n J).within fun c => c.1 = true).step c a c') : Kept c' := by
  obtain ⟨hst, hset⟩ := hst
  cases a with
  | inr b =>
    obtain rfl : c' = (b, c.2) := hst
    exact ⟨.inr hset, h.used, h.woken⟩
  | inl a =>
    obtain ⟨k', t⟩ := c'
    obtain rfl : k' = true := hset
    obtain ⟨hused, hpool⟩ := (lifeStep_move hst).used h.flag h.used
    refine ⟨.inr rfl, hused, ?_⟩
    rcases hpool with hpool | hpool | ⟨a', hst'⟩
    · exact .inl (hpool ▸ Pool.woken_made)
    · exact hpool ▸ h.woken
    · exact h.woken.elim (fun hw => hw.step_or_broken hst') fun hb =>
        .inr (Pool.broken_step hb hst')

theorem kept_of_reach {c : Bool × Life n J Empty}
    (h : ((lifeSystem n J).within fun c => c.1 = true).Reach c) : Kept c := by
  refine h.invariant ?_ fun _ _ _ hc hst => hc.step hst
  rintro c rfl
  exact ⟨.inl rfl, rfl, .inl Pool.woken_made⟩

/-- The worker has returned from the semaphore and has not pulled since. -/
def OnTheWay (code : List PoolInstr) : Prop :=
  .pull ∈ code ∨ .ifKeepalive ∈ code ∧ .setV 0 ∉ code

variable {code : List PoolInstr}

/-- Only who waits takes the semaphore. -/
theorem pc_of_take (h : PoolOutline code q q') (hmem : .setV 0 ∈ code) : q.pc = .worker .wait := by
  induction h with
  | nil => cases hmem
  | @cons i code q q₁ q₂ hi _ ih =>
    rcases List.mem_cons.1 hmem with rfl | hmem
    · cases hi
      rfl
    · have hpc := ih hmem
      cases hi <;> first
        | exact hpc
        | cases hpc

/-- Who has counted itself as working pulls, unless it has detached a job already. -/
theorem pull_mem (h : PoolOutline code q q') (hq' : q'.pc = .worker .exited)
    (hq : q.pc = .worker .count ∨ q.pc = .worker .pull ∧ ∀ jobP, q.task ≠ .took jobP) :
    .pull ∈ code := by
  induction h with
  | nil => simp [hq'] at hq
  | @cons i code q q₁ q₂ hi _ ih =>
    cases hi
    case pull => exact List.mem_cons_self
    all_goals first
      | exact List.mem_cons_of_mem _ (ih hq' hq)
      | exact List.mem_cons_of_mem _ (ih hq' (by simp_all))

theorem ifKeepalive_mem (h : PoolOutline code q q') (hq' : q'.pc = .worker .exited)
    (hq : q.pc = .worker .check) : .ifKeepalive ∈ code := by
  induction h with
  | nil => simp [hq'] at hq
  | @cons i code q q₁ q₂ hi _ ih =>
    cases hi
    case ifKeepalive => exact List.mem_cons_self
    all_goals first
      | exact List.mem_cons_of_mem _ (ih hq' hq)
      | cases hq

/-- A worker that holds a wake-up in atomic steps is on its way in the code. -/
theorem PoolSim.onTheWay (h : PoolSim s place c) (hclears : ¬(place none).pc.Clears)
    (hrw : s.mem.owner .rwmutex = none) {w : Fin n} (hw : (c.2.pool.thread w).holds = true) :
    OnTheWay (s.code (some w)) := by
  obtain ⟨ids, hpaired⟩ := h.paired hclears
  obtain ⟨pc, hpc⟩ : ∃ pc, (place (some w)).pc = .worker pc := by
    have hcaller := hpaired.isCaller (some w)
    cases hpc : (place (some w)).pc with
    | worker pc => exact ⟨pc, rfl⟩
    | caller pc =>
      rw [hpc] at hcaller
      cases hcaller
  rw [hpaired.mirrors.thread w pc hpc] at hw
  have hcode := h.placed.outlined (some w)
  cases pc with
  | check =>
    refine .inr ⟨ifKeepalive_mem hcode rfl hpc, fun hmem => ?_⟩
    cases hpc.symm.trans (pc_of_take hcode hmem)
  | count => exact .inl (pull_mem hcode rfl (.inl hpc))
  | pull =>
    refine .inl (pull_mem hcode rfl (.inr ⟨hpc, fun jobP htask => ?_⟩))
    -- who has detached a job and not posted yet has the mutex of the queue
    have hheld := (h.placed.ok.owner _ _).2 (h.placed.ok.guarded (some w) .rwmutex (by
      rw [htask]
      rfl))
    rw [hrw] at hheld
    cases hheld
  | start | loop | wait | run | free | uncount | leave | exited => cases hw

/-- While the flag is set no wake-up is lost : if a job is queued, nobody is at the queue and its
head is in place, then the semaphore is up or a worker is on its way to the queue. -/
theorem wakeup_of_run {tr : List (PoolThreads n J × DestroyLabel n J × PoolThreads n J)}
    (h : (destroySystem n J).Run tr s) (hflag : ∀ m ∈ tr, m.2.2.mem.keepalive = true)
    (hrw : s.mem.owner .rwmutex = none) (hhead : (s.mem.tp.ring .jobHead).succ ≠ none)
    (hlen : 0 < s.mem.tp.len) : s.mem.tp.v = 1 ∨ ∃ w, OnTheWay (s.code (some w)) := by
  have hsim := (destroySystem_simulation n J).within
    (P := fun s => s.mem.keepalive = true) (Q := fun c => c.1 = true) ?_ ?_
  · obtain ⟨c, hreach, place, hsim⟩ := hsim.reach ⟨tr, h.within hflag⟩
    have hkept := kept_of_reach hreach
    have hclears : ¬(place none).pc.Clears := by
      have hused := hkept.used
      rintro (hpc | hpc) <;> rw [hsim.pc _ hpc] at hused <;> cases hused
    obtain ⟨ids, -, hM⟩ := hsim.mirrors hclears
    have hlen' := hM.len hrw hhead
    rcases hkept.woken with hwoken | hbroken
    · rcases hwoken.wakeup (hlen' ▸ hlen) with hv | hholders
      · exact .inl (hM.v.symm.trans hv)
      · obtain ⟨w, hw⟩ := threadCount_pos.1 hholders
        exact .inr ⟨w, hsim.onTheWay hclears hrw hw⟩
    · cases hM.queue with
      | whole _ hq' => cases hq'.ring.succ_head.symm.trans hbroken.succ
      | broken hb => exact absurd hb.succ hhead
  · rintro s rfl
    obtain ⟨tr, hrun, hshown⟩ := lifeSystem_made n J n le_rfl
    exact ⟨tr, _, hrun, hshown, _, poolSim_init⟩
  · rintro s c hs ⟨place, hsim⟩
    exact hsim.flag.trans hs

/-- A step after which the flag is set. -/
def destroyStepSet (s : PoolThreads n J) (label : DestroyLabel n J) : Option (PoolThreads n J) :=
  (destroyStep s label).filter (·.mem.keepalive)

/-- The only worker has taken the wake-up for the job that the client added. -/
theorem wakeup_of_run_taken :
    ∃ (tr : List (PoolThreads 1 Unit × DestroyLabel 1 Unit × PoolThreads 1 Unit))
      (s : PoolThreads 1 Unit), (destroySystem 1 Unit).Run tr s ∧ s.mem.tp.v = 0 ∧
      (s.mem.tp.v = 1 ∨ ∃ w, OnTheWay (s.code (some w))) := by
  have hrun : ((stepsOf (some 0) 4 ++ stepsOf none 1 ++ [DestroyLabel.step none (.addWork ())] ++
      stepsOf none 7 ++ stepsOf (some 0) 8).foldlM destroyStepSet (destroyInit 1 Unit)).any
      (fun s : PoolThreads 1 Unit => s.mem.owner .rwmutex = none ∧
        (s.mem.tp.ring .jobHead).succ ≠ none ∧ 0 < s.mem.tp.len ∧ s.mem.tp.v = 0) = true := by
    decide +kernel
  obtain ⟨s, hfold, hobs⟩ := (Option.any_eq_true _ _).1 hrun
  obtain ⟨hrw, hhead, hlen, hv⟩ := of_decide_eq_true hobs
  obtain ⟨tr, hpath, -⟩ := LTS.Path.of_foldlM
    (S := (destroySystem 1 Unit).within fun s => s.mem.keepalive = true)
    (fun _ _ _ hst => Option.filter_eq_some_iff.1 hst) hfold
  have hr : ((destroySystem 1 Unit).within fun s => s.mem.keepalive = true).Run tr s :=
    ⟨_, rfl, hpath⟩
  exact ⟨tr, s, hr.of_within, hv, wakeup_of_run hr.of_within
    (fun m hm => (hpath.step_of_mem hm).2) hrw hhead hlen⟩

end Nowra
