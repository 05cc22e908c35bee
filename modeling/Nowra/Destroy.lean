import Mathlib.Algebra.Order.BigOperators.Group.Finset
import Mathlib.Algebra.Order.Ring.Int
import Mathlib.Data.Fintype.BigOperators
import Nowra.PoolSteps

/-!
# The destruction of a pool

`thpool_destroy` clears the flag, wakes the workers until it reads that none of them is alive, and
then frees the pool. A worker takes itself off the count under `thcount_lock`, and unlocks the
mutex after that, which is in the pool.

Whatever the interleaving, the workers have nothing left but this unlock when the first block is
freed (`CallerAt`), and all jobs have been freed, each of them once (`DestroyInv.jobs_freed`). So a
block is freed after the last access of every worker if and only if no thread has `thcount_lock`
when it is freed (`freesLast_iff`).
-/

namespace Nowra

variable {n : ℕ} {J : Type}

/-- When the block is freed, no worker has a step left that reads or writes the pool. No job is
freed twice, and all jobs are freed before the first block. -/
structure FreesLast (block : PoolBlock) (s : PoolThreads n J) : Prop where
  safe : block ∈ s.mem.freed → ∀ w : Fin n, ∀ i ∈ s.code (some w), i.touches w = []
  once : s.mem.freedJobs.Nodup
  all : s.mem.freed ≠ [] → s.mem.freedJobs.Perm (List.range s.mem.tp.nextJob)

/-- If the step frees the block, no thread has `thcount_lock`. -/
def FreesUnlocked (block : PoolBlock) (s : PoolThreads n J) (label : DestroyLabel n J) : Prop :=
  ∀ choice, label = .step none choice → (s.code none).head? = some (.freeBlock block) →
    s.mem.owner .thcountLock = none

/-! ## Where a worker is -/

/-- The steps inside a turn of the loop of a worker, of `thpool_add_work`, of `thpool_wait`, and of
a post. -/
def PoolInstr.Plain : PoolInstr → Prop
  | .readSem | .lock _ | .unlock _ | .workingInc | .workingDec | .ifKeepalive | .whileV | .setV _
  | .pull | .run _ | .freeJob _ | .push _ | .waitLen _ | .waitWorking _ => True
  | _ => False

/-- A worker has left the loop and is off the count. -/
def Left (code : List PoolInstr) : Prop :=
  code = [.unlock .thcountLock] ∨ code = []

/-- A worker has counted itself. -/
inductive Started (code : List PoolInstr) : Prop
  | looping {l : List PoolInstr} (hl : ∀ i ∈ l, i.Plain)
      (hc : code = l ++ [.whileKeepalive])
  | leaving (hc : code = threadLeaveCode ∨ code = [.aliveDec, .unlock .thcountLock])
  | left (h : Left code)

/-- Where a worker can be. -/
inductive WorkerAt (code : List PoolInstr) : Prop
  | starting {k : ℕ} (hk : k < 3) (hc : code = threadDoCode.drop k)
  | started (h : Started code)

section Steps

variable {t : Option (Fin n)} {choice : PoolChoice J} {i : PoolInstr} {m m' : PoolMem n J}
  {new rest : List PoolInstr}

/-- A plain step is replaced by plain steps, and frees no block. -/
theorem poolExec_plain (hi : i.Plain) (h : poolExec t choice i m = some (m', new)) :
    (∀ j ∈ new, j.Plain) ∧ m'.freed = m.freed := by
  rcases poolExec_cases h with hnext | ⟨job, hadd⟩ | ⟨hidle, rfl⟩
  · cases i <;> try exact hi.elim
    case pull =>
      obtain ⟨⟨jobP, post, tp⟩, hr, he⟩ := Option.map_eq_some_iff.1 hnext
      cases he
      cases post <;> simp [postCode, bsemPostCode, threadJobCode, PoolInstr.Plain]
    case push =>
      obtain ⟨tp, hr, he⟩ := Option.map_eq_some_iff.1 hnext
      cases he
      simp
    case freeJob jobP =>
      cases jobP <;> cases hnext
      simp
    all_goals
      simp only [poolNext] at hnext
      try split at hnext
      all_goals cases hnext
      all_goals simp [PoolInstr.Plain, PoolMem.setOwner, threadWorkCode]
  · obtain ⟨⟨jobP, rfl, -⟩ | rfl, rfl, rfl⟩ := poolAddWork_cases hadd
    · simp [addWorkCode, bsemPostCode, PoolInstr.Plain, PoolMem.newJob]
    · exact hi.elim
  · cases hidle with
    | waitLen => simp
    | wait | whileTimed => exact hi.elim

theorem aliveWeight_plain (hi : i.Plain) : aliveWeight i = 0 := by
  cases i <;> first | rfl | exact hi.elim

/-- A plain step before code keeps what comes before it plain. -/
theorem plain_step {pre : List PoolInstr} (hpre : ∀ j ∈ i :: pre, j.Plain)
    (h : poolExec t choice i m = some (m', new)) :
    (∀ j ∈ new ++ pre, j.Plain) ∧ m'.freed = m.freed := by
  obtain ⟨hnew, hfreed⟩ := poolExec_plain (hpre i (by simp)) h
  refine ⟨fun j hj => ?_, hfreed⟩
  rcases List.mem_append.1 hj with hj | hj
  · exact hnew j hj
  · exact hpre j (List.mem_cons_of_mem _ hj)

/-- A worker that is off the count only unlocks the mutex. -/
theorem Left.step (h : Left (i :: rest)) (hexec : poolExec t choice i m = some (m', new)) :
    new ++ rest = [] ∧ m'.tp = m.tp ∧ m'.freed = m.freed := by
  rcases h with hc | hc
  · obtain ⟨rfl, rfl⟩ := List.cons.inj hc
    have hnext := poolExec_certain hexec trivial
    simp only [poolNext] at hnext
    split at hnext <;> cases hnext
    exact ⟨rfl, rfl, rfl⟩
  · cases hc

/-- A step of a worker that has counted itself. -/
theorem Started.step (h : Started (i :: rest))
    (hexec : poolExec t choice i m = some (m', new)) :
    Started (new ++ rest) ∧ m'.freed = m.freed := by
  rcases h with @⟨pre, hpre, hc⟩ | ⟨hc | hc⟩ | h
  · cases pre with
    | nil =>
      obtain ⟨rfl, rfl⟩ := List.cons.inj hc
      cases poolExec_certain hexec trivial
      refine ⟨?_, rfl⟩
      split
      · exact .looping (l := bsemWaitCode ++ [.ifKeepalive])
          (by simp [bsemWaitCode, PoolInstr.Plain]) rfl
      · exact .leaving (.inl rfl)
    | cons j pre =>
      obtain ⟨rfl, rfl⟩ := List.cons.inj hc
      obtain ⟨hnew, hfreed⟩ := plain_step hpre hexec
      exact ⟨.looping hnew (by simp), hfreed⟩
  · obtain ⟨rfl, rfl⟩ := List.cons.inj hc
    have hnext := poolExec_certain hexec trivial
    simp only [poolNext] at hnext
    split at hnext <;> cases hnext
    exact ⟨.leaving (.inr rfl), rfl⟩
  · obtain ⟨rfl, rfl⟩ := List.cons.inj hc
    cases poolExec_certain hexec trivial
    exact ⟨.left (.inl rfl), rfl⟩
  · obtain ⟨hnil, -, hfreed⟩ := h.step hexec
    exact ⟨.left (.inr hnil), hfreed⟩

/-- A step of a worker. -/
theorem WorkerAt.step (h : WorkerAt (i :: rest)) (hexec : poolExec t choice i m = some (m', new)) :
    WorkerAt (new ++ rest) ∧ m'.freed = m.freed := by
  rcases h with @⟨k, hk, hc⟩ | h
  · match k, hk with
    | 0, _ =>
      obtain ⟨rfl, rfl⟩ := List.cons.inj hc
      cases poolExec_certain hexec trivial
      exact ⟨.starting (k := 1) (by decide) rfl, rfl⟩
    | 1, _ =>
      obtain ⟨rfl, rfl⟩ := List.cons.inj hc
      have hnext := poolExec_certain hexec trivial
      simp only [poolNext] at hnext
      split at hnext <;> cases hnext
      exact ⟨.starting (k := 2) (by decide) rfl, rfl⟩
    | 2, _ =>
      obtain ⟨rfl, rfl⟩ := List.cons.inj hc
      cases poolExec_certain hexec trivial
      exact ⟨.started (.looping (l := [.unlock .thcountLock]) (by simp [PoolInstr.Plain]) rfl),
        rfl⟩
  · obtain ⟨hstarted, hfreed⟩ := h.step hexec
    exact ⟨.started hstarted, hfreed⟩

end Steps

/-! ## The count -/

theorem aliveSum_plain {pre : List PoolInstr} (hpre : ∀ i ∈ pre, i.Plain) :
    codeSum aliveWeight pre = 0 :=
  codeSum_eq_zero fun i hi => aliveWeight_plain (hpre i hi)

/-- A worker that has counted itself counts until it has left. -/
theorem Started.aliveSum {code : List PoolInstr} (h : Started code) :
    codeSum aliveWeight code = 1 ∨ codeSum aliveWeight code = 0 ∧ Left code := by
  rcases h with ⟨hpre, rfl⟩ | ⟨rfl | rfl⟩ | ⟨rfl | rfl⟩
  · rw [codeSum_append, aliveSum_plain hpre]
    exact .inl rfl
  · exact .inl rfl
  · exact .inl rfl
  · exact .inr ⟨rfl, .inl rfl⟩
  · exact .inr ⟨rfl, .inr rfl⟩

theorem WorkerAt.aliveSum {code : List PoolInstr} (h : WorkerAt code) :
    codeSum aliveWeight code = 0 ∨ codeSum aliveWeight code = 1 ∧ Started code := by
  rcases h with @⟨k, hk, rfl⟩ | h
  · match k, hk with
    | 0, _ | 1, _ | 2, _ => exact .inl rfl
  · rcases h.aliveSum with hone | ⟨hzero, -⟩
    · exact .inr ⟨hone, h⟩
    · exact .inl hzero

variable {s : PoolThreads n J}

/-- With all workers alive, each has counted itself. -/
theorem started_of_alive (hw : ∀ w : Fin n, WorkerAt (s.code (some w)))
    (hcaller : codeSum aliveWeight (s.code none) = 0) (halive : totalSum aliveWeight s.code = n)
    (w : Fin n) : Started (s.code (some w)) := by
  rw [totalSum, Fintype.sum_option, hcaller, zero_add] at halive
  rcases (hw w).aliveSum with hzero | ⟨-, hs⟩
  · have hlt : ∑ u : Fin n, codeSum aliveWeight (s.code (some u)) < ∑ _u : Fin n, (1 : ℤ) :=
      Finset.sum_lt_sum (fun u _ => by rcases (hw u).aliveSum with h | ⟨h, -⟩ <;> omega)
        ⟨w, Finset.mem_univ w, by omega⟩
    simp only [Finset.sum_const, Finset.card_univ, Fintype.card_fin, nsmul_eq_mul, mul_one] at hlt
    omega
  · exact hs

/-- With no worker alive, each has left. -/
theorem left_of_alive (hs : ∀ w : Fin n, Started (s.code (some w)))
    (hcaller : codeSum aliveWeight (s.code none) = 0) (halive : totalSum aliveWeight s.code = 0)
    (w : Fin n) : Left (s.code (some w)) := by
  rw [totalSum, Fintype.sum_option, hcaller, zero_add,
    Finset.sum_eq_zero_iff_of_nonneg fun u _ => by rcases (hs u).aliveSum with h | ⟨h, -⟩ <;> omega]
    at halive
  rcases (hs w).aliveSum with hone | ⟨-, hleft⟩
  · have hzero := halive w (Finset.mem_univ w)
    omega
  · exact hleft

/-! ## Where the caller is -/

/-- The steps of `thpool_destroy` after the queue is empty. -/
def PoolInstr.Final : PoolInstr → Prop
  | .resetSem | .clearLen | .freeBlock _ | .freeThreads _ => True
  | _ => False

/-- Where the caller is, with what it has made sure of. -/
inductive CallerAt (s : PoolThreads n J) : Prop
  /-- In `thpool_init`. -/
  | starting (hc : s.code none = [.whileAliveNot, .client]) (hfreed : s.mem.freed = [])
  /-- Between `thpool_init` and `thpool_destroy`. -/
  | serving {l : List PoolInstr} (hl : ∀ i ∈ l, i.Plain)
      (hc : s.code none = l ++ [.client]) (hfreed : s.mem.freed = [])
      (hw : ∀ w : Fin n, Started (s.code (some w)))
  /-- Before the end of the second loop of `thpool_destroy`. -/
  | polling {l : List PoolInstr} {k : ℕ} (hl : ∀ i ∈ l, i.Plain) (hk : k < 4)
      (hc : s.code none = l ++ destroyCode.drop k) (hfreed : s.mem.freed = [])
      (hw : ∀ w : Fin n, Started (s.code (some w)))
  /-- In the loop of `thpool_jobqueue_clear`. -/
  | clearing {l : List PoolInstr} (hl : ∀ i ∈ l, i.Plain)
      (hc : s.code none = l ++ .whileLen :: cleanupCode) (hfreed : s.mem.freed = [])
      (hw : ∀ w : Fin n, Left (s.code (some w)))
  | pulling (hc : s.code none = .clearPull :: .whileLen :: cleanupCode)
      (hlen : s.mem.tp.len ≠ 0) (hfreed : s.mem.freed = [])
      (hw : ∀ w : Fin n, Left (s.code (some w)))
  | freeing (hc : ∀ i ∈ s.code none, i.Final) (hlen : s.mem.tp.len = 0)
      (hw : ∀ w : Fin n, Left (s.code (some w)))

variable {choice : PoolChoice J} {i : PoolInstr} {m' : PoolMem n J} {new rest : List PoolInstr}

/-- The caller is no worker. -/
theorem CallerAt.aliveSum (h : CallerAt s) : codeSum aliveWeight (s.code none) = 0 := by
  cases h with
  | starting hc => rw [hc]; rfl
  | serving hpre hc =>
    rw [hc, codeSum_append, aliveSum_plain hpre]
    rfl
  | @polling pre k hpre hk hc =>
    rw [hc, codeSum_append, aliveSum_plain hpre]
    match k, hk with
    | 0, _ | 1, _ | 2, _ | 3, _ => rfl
  | clearing hpre hc =>
    rw [hc, codeSum_append, aliveSum_plain hpre]
    rfl
  | pulling hc => rw [hc]; rfl
  | freeing hc =>
    refine codeSum_eq_zero fun i hi => ?_
    have hfinal := hc i hi
    cases i <;> first | rfl | exact hfinal.elim

/-- What holds of the code of all workers holds when one has moved. -/
theorem workers_replaced {P : List PoolInstr → Prop} {w : Fin n}
    (h : ∀ u : Fin n, P (s.code (some u))) (hnew : P (new ++ rest)) (u : Fin n) :
    P ((s.replaced (some w) m' new rest).code (some u)) := by
  by_cases hu : u = w
  · subst hu
    rwa [Threads.replaced_code_self]
  · rw [Threads.replaced_code_of_ne (by simpa using hu)]
    exact h u

/-- A step of a worker leaves the caller where it is. -/
theorem CallerAt.worker {w : Fin n} (h : CallerAt s) (hat : WorkerAt (i :: rest))
    (hc : s.code (some w) = i :: rest)
    (hexec : poolExec (some w) choice i s.mem = some (m', new)) :
    CallerAt (s.replaced (some w) m' new rest) := by
  have hcode : (s.replaced (some w) m' new rest).code none = s.code none :=
    Threads.replaced_code_of_ne (by simp) ..
  have hfreed := (hat.step hexec).2
  have hstarted : (∀ u : Fin n, Started (s.code (some u))) →
      ∀ u : Fin n, Started ((s.replaced (some w) m' new rest).code (some u)) := by
    intro hw
    have hi := hw w
    rw [hc] at hi
    exact workers_replaced hw (hi.step hexec).1
  have hleft : (∀ u : Fin n, Left (s.code (some u))) → m'.tp = s.mem.tp ∧
      ∀ u : Fin n, Left ((s.replaced (some w) m' new rest).code (some u)) := by
    intro hw
    have hi := hw w
    rw [hc] at hi
    obtain ⟨hnil, htp, -⟩ := hi.step hexec
    exact ⟨htp, workers_replaced hw (.inr hnil)⟩
  cases h with
  | starting hc' hf => exact .starting (hcode.trans hc') (hfreed.trans hf)
  | serving hpre hc' hf hw =>
    exact .serving hpre (hcode.trans hc') (hfreed.trans hf) (hstarted hw)
  | polling hpre hk hc' hf hw =>
    exact .polling hpre hk (hcode.trans hc') (hfreed.trans hf) (hstarted hw)
  | clearing hpre hc' hf hw =>
    exact .clearing hpre (hcode.trans hc') (hfreed.trans hf) (hleft hw).2
  | pulling hc' hlen hf hw =>
    obtain ⟨htp, hw'⟩ := hleft hw
    exact .pulling (hcode.trans hc') (by rwa [Threads.replaced_mem, htp]) (hfreed.trans hf) hw'
  | freeing hc' hlen hw =>
    obtain ⟨htp, hw'⟩ := hleft hw
    exact .freeing (by rwa [hcode]) (by rwa [Threads.replaced_mem, htp]) hw'

/-- A step of the caller while it waits for the workers to count themselves. -/
theorem CallerAt.starting_step (hw : ∀ w : Fin n, WorkerAt (s.code (some w)))
    (halive : s.mem.tp.numThreadsAlive = totalSum aliveWeight s.code)
    (hc : s.code none = [.whileAliveNot, .client]) (hfreed : s.mem.freed = [])
    (hexec : poolExec none choice .whileAliveNot s.mem = some (m', new)) :
    CallerAt (s.replaced none m' new [.client]) := by
  cases poolExec_certain hexec trivial
  have hsame (u : Fin n) (new : List PoolInstr) :
      (s.replaced none s.mem new [.client]).code (some u) = s.code (some u) :=
    Threads.replaced_code_of_ne (by simp) ..
  by_cases hn : s.mem.tp.numThreadsAlive = n
  · refine .serving (l := []) (by simp) (by simp [hn]) hfreed fun w => ?_
    rw [hsame]
    exact started_of_alive hw (by rw [hc]; rfl) (halive.symm.trans hn) w
  · exact .starting (by simp [hn]) hfreed

/-- A step of the caller while it uses the pool. -/
theorem CallerAt.serving_step {pre : List PoolInstr} (hpre : ∀ i ∈ pre, i.Plain)
    (hc : pre ++ [.client] = i :: rest) (hfreed : s.mem.freed = [])
    (hw : ∀ w : Fin n, Started (s.code (some w)))
    (hexec : poolExec none choice i s.mem = some (m', new)) :
    CallerAt (s.replaced none m' new rest) := by
  have hsame (w : Fin n) : Started ((s.replaced none m' new rest).code (some w)) := by
    rw [Threads.replaced_code_of_ne (by simp)]
    exact hw w
  cases pre with
  | nil =>
    obtain ⟨rfl, rfl⟩ := List.cons.inj hc
    cases choice <;> simp only [poolExec, poolNext, poolAddWork, reduceCtorEq] at hexec <;>
      cases hexec
    · exact .polling (l := []) (k := 0) (by simp) (by decide) (by simp) hfreed hsame
    · exact .serving (l := addWorkCode s.mem.tp.nextJob)
        (by simp [addWorkCode, bsemPostCode, PoolInstr.Plain]) (by simp) hfreed hsame
    · exact .serving (l := waitCode) (by simp [waitCode, PoolInstr.Plain]) (by simp) hfreed hsame
  | cons j pre =>
    obtain ⟨rfl, rfl⟩ := List.cons.inj hc
    obtain ⟨hnew, hf⟩ := plain_step hpre hexec
    exact .serving hnew (by simp) (hf.trans hfreed) hsame

/-- A step of the caller before the end of the second loop. -/
theorem CallerAt.polling_step {pre : List PoolInstr} {k : ℕ} (hpre : ∀ i ∈ pre, i.Plain)
    (hk : k < 4) (hc : pre ++ destroyCode.drop k = i :: rest) (hfreed : s.mem.freed = [])
    (hw : ∀ w : Fin n, Started (s.code (some w)))
    (hcaller : codeSum aliveWeight (s.code none) = 0)
    (halive : s.mem.tp.numThreadsAlive = totalSum aliveWeight s.code)
    (hexec : poolExec none choice i s.mem = some (m', new)) :
    CallerAt (s.replaced none m' new rest) := by
  have hsame (w : Fin n) : (s.replaced none m' new rest).code (some w) = s.code (some w) :=
    Threads.replaced_code_of_ne (by simp) ..
  have hstarted (w : Fin n) : Started ((s.replaced none m' new rest).code (some w)) := by
    rw [hsame]
    exact hw w
  cases pre with
  | nil =>
    match k, hk with
    | 0, _ | 1, _ =>
      obtain ⟨rfl, rfl⟩ := List.cons.inj hc
      cases poolExec_certain hexec trivial
      first
      | exact .polling (l := []) (k := 1) (by simp) (by decide) (by simp; rfl) hfreed hstarted
      | exact .polling (l := []) (k := 2) (by simp) (by decide) (by simp; rfl) hfreed hstarted
    | 2, _ =>
      obtain ⟨rfl, rfl⟩ := List.cons.inj hc
      cases choice <;> simp only [poolExec, poolNext, poolAddWork, reduceCtorEq] at hexec <;>
        cases hexec
      · by_cases hn : s.mem.tp.numThreadsAlive = 0
        · exact .polling (l := []) (k := 3) (by simp) (by decide) (by simp [hn]; rfl) hfreed
            hstarted
        · exact .polling (l := bsemPostCode) (k := 2) (by simp [bsemPostCode, PoolInstr.Plain])
            (by decide) (by simp [hn]; rfl) hfreed hstarted
      · exact .polling (l := []) (k := 3) (by simp) (by decide) (by simp; rfl) hfreed hstarted
    | 3, _ =>
      obtain ⟨rfl, rfl⟩ := List.cons.inj hc
      cases poolExec_certain hexec trivial
      by_cases hn : s.mem.tp.numThreadsAlive = 0
      · refine .clearing (l := []) (by simp) (by simp [hn]) hfreed fun w => ?_
        rw [hsame]
        exact left_of_alive hw hcaller (halive.symm.trans hn) w
      · exact .polling (l := bsemPostCode) (k := 3) (by simp [bsemPostCode, PoolInstr.Plain])
          (by decide) (by simp [hn]; rfl) hfreed hstarted
  | cons j pre =>
    obtain ⟨rfl, rfl⟩ := List.cons.inj hc
    obtain ⟨hnew, hf⟩ := plain_step hpre hexec
    exact .polling hnew hk (by simp) (hf.trans hfreed) hstarted

/-- A step of the caller at the test of the loop over the queue, or in a post before it. -/
theorem CallerAt.clearing_step {pre : List PoolInstr} (hpre : ∀ i ∈ pre, i.Plain)
    (hc : pre ++ .whileLen :: cleanupCode = i :: rest) (hfreed : s.mem.freed = [])
    (hw : ∀ w : Fin n, Left (s.code (some w)))
    (hexec : poolExec none choice i s.mem = some (m', new)) :
    CallerAt (s.replaced none m' new rest) := by
  have hsame (w : Fin n) : Left ((s.replaced none m' new rest).code (some w)) := by
    rw [Threads.replaced_code_of_ne (by simp)]
    exact hw w
  cases pre with
  | nil =>
    obtain ⟨rfl, rfl⟩ := List.cons.inj hc
    cases poolExec_certain hexec trivial
    by_cases hn : s.mem.tp.len = 0
    · exact .freeing (by simp [hn, cleanupCode, PoolInstr.Final]) hn hsame
    · exact .pulling (by simp [hn]) hn hfreed hsame
  | cons j pre =>
    obtain ⟨rfl, rfl⟩ := List.cons.inj hc
    obtain ⟨hnew, hf⟩ := plain_step hpre hexec
    exact .clearing hnew (by simp) (hf.trans hfreed) hsame

/-- A pull of the caller. -/
theorem CallerAt.pulling_step (hfreed : s.mem.freed = [])
    (hw : ∀ w : Fin n, Left (s.code (some w)))
    (hexec : poolExec none choice .clearPull s.mem = some (m', new)) :
    CallerAt (s.replaced none m' new (.whileLen :: cleanupCode)) := by
  obtain ⟨⟨jobP, post, tp⟩, hr, he⟩ :=
    Option.map_eq_some_iff.1 (poolExec_certain hexec trivial)
  cases he
  refine .clearing (l := postCode post ++ [.freeJob jobP]) ?_ (by simp) hfreed fun w => ?_
  · cases post <;> simp [postCode, bsemPostCode, PoolInstr.Plain]
  · rw [Threads.replaced_code_of_ne (by simp)]
    exact hw w

/-- A step of the caller after the queue is empty. -/
theorem CallerAt.freeing_step (hfinal : ∀ j ∈ i :: rest, j.Final) (hlen : s.mem.tp.len = 0)
    (hw : ∀ w : Fin n, Left (s.code (some w)))
    (hexec : poolExec none choice i s.mem = some (m', new)) :
    CallerAt (s.replaced none m' new rest) := by
  have hi := hfinal i (by simp)
  have hnew : (∀ j ∈ new, j.Final) ∧ m'.tp.len = 0 := by
    cases i <;> try exact hi.elim
    all_goals
      cases poolExec_certain hexec trivial
      try split
      all_goals simp [hlen, PoolInstr.Final]
  refine .freeing (fun j hj => ?_) hnew.2 fun w => ?_
  · rw [Threads.replaced_code_self] at hj
    rcases List.mem_append.1 hj with hj | hj
    · exact hnew.1 j hj
    · exact hfinal j (List.mem_cons_of_mem _ hj)
  · rw [Threads.replaced_code_of_ne (by simp)]
    exact hw w

/-- A step of the caller. -/
theorem CallerAt.caller (h : CallerAt s) (hw : ∀ w : Fin n, WorkerAt (s.code (some w)))
    (halive : s.mem.tp.numThreadsAlive = totalSum aliveWeight s.code)
    (hc : s.code none = i :: rest) (hexec : poolExec none choice i s.mem = some (m', new)) :
    CallerAt (s.replaced none m' new rest) := by
  have hcaller := h.aliveSum
  cases h with
  | starting hc' hf =>
    obtain ⟨rfl, rfl⟩ := List.cons.inj (hc.symm.trans hc')
    exact .starting_step hw halive hc' hf hexec
  | serving hpre hc' hf hstarted => exact .serving_step hpre (hc'.symm.trans hc) hf hstarted hexec
  | polling hpre hk hc' hf hstarted =>
    exact .polling_step hpre hk (hc'.symm.trans hc) hf hstarted hcaller halive hexec
  | clearing hpre hc' hf hleft => exact .clearing_step hpre (hc'.symm.trans hc) hf hleft hexec
  | pulling hc' hlen hf hleft =>
    obtain ⟨rfl, rfl⟩ := List.cons.inj (hc.symm.trans hc')
    exact .pulling_step hf hleft hexec
  | freeing hfinal hlen hleft => exact .freeing_step (by rwa [← hc]) hlen hleft hexec

/-- Code that starts with no plain step has no plain steps before the rest. -/
theorem tail_eq_of_not_plain {pre tail : List PoolInstr} (hpre : ∀ j ∈ pre, j.Plain)
    (hc : pre ++ tail = i :: rest) (hi : ¬i.Plain) : tail = i :: rest := by
  cases pre with
  | nil => exact hc
  | cons j pre =>
    obtain ⟨rfl, -⟩ := List.cons.inj hc
    exact absurd (hpre j (by simp)) hi

/-- The caller cleans up after the queue is empty and the workers have left. -/
theorem CallerAt.of_final (h : CallerAt s) (hc : s.code none = i :: rest) (hi : i.Final) :
    (∀ j ∈ s.code none, j.Final) ∧ s.mem.tp.len = 0 ∧ ∀ w : Fin n, Left (s.code (some w)) := by
  have hplain : ¬i.Plain := by
    intro hplain
    cases i <;> first | exact hi.elim | exact hplain.elim
  cases h with
  | starting hc' =>
    obtain ⟨rfl, -⟩ := List.cons.inj (hc'.symm.trans hc)
    exact hi.elim
  | serving hpre hc' =>
    obtain ⟨rfl, -⟩ := List.cons.inj (tail_eq_of_not_plain hpre (hc'.symm.trans hc) hplain)
    exact hi.elim
  | @polling pre k hpre hk hc' =>
    have htail := tail_eq_of_not_plain hpre (hc'.symm.trans hc) hplain
    match k, hk with
    | 0, _ | 1, _ | 2, _ | 3, _ =>
      obtain ⟨rfl, -⟩ := List.cons.inj htail
      exact hi.elim
  | clearing hpre hc' =>
    obtain ⟨rfl, -⟩ := List.cons.inj (tail_eq_of_not_plain hpre (hc'.symm.trans hc) hplain)
    exact hi.elim
  | pulling hc' =>
    obtain ⟨rfl, -⟩ := List.cons.inj (hc'.symm.trans hc)
    exact hi.elim
  | freeing hfinal hlen hw => exact ⟨hfinal, hlen, hw⟩

/-- The caller pulls after it has found the queue not empty. -/
theorem CallerAt.len_ne_zero (h : CallerAt s) (hc : s.code none = .clearPull :: rest) :
    s.mem.tp.len ≠ 0 := by
  cases h with
  | starting hc' => cases hc'.symm.trans hc
  | serving hpre hc' => cases tail_eq_of_not_plain hpre (hc'.symm.trans hc) id
  | @polling pre k hpre hk hc' =>
    have htail := tail_eq_of_not_plain hpre (hc'.symm.trans hc) id
    match k, hk with
    | 0, _ | 1, _ | 2, _ | 3, _ => cases htail
  | clearing hpre hc' => cases tail_eq_of_not_plain hpre (hc'.symm.trans hc) id
  | pulling hc' hlen => exact hlen
  | freeing hfinal => exact (hfinal .clearPull (by simp [hc])).elim

/-- A worker has no step of `thpool_destroy`. -/
theorem WorkerAt.not_caller (h : WorkerAt (i :: rest)) : i ≠ .clearPull ∧ ¬i.Final := by
  have hne {j : PoolInstr} (hj : j ≠ .clearPull ∧ ¬j.Final) (hc : i = j) :
      i ≠ .clearPull ∧ ¬i.Final := hc ▸ hj
  rcases h with @⟨k, hk, hc⟩ | @⟨pre, hpre, hc⟩ | ⟨hc | hc⟩ | ⟨hc | hc⟩
  · match k, hk with
    | 0, _ | 1, _ | 2, _ => exact hne ⟨by simp, id⟩ (List.cons.inj hc).1
  · cases pre with
    | nil => exact hne ⟨by simp, id⟩ (List.cons.inj hc).1
    | cons j pre =>
      obtain ⟨rfl, -⟩ := List.cons.inj hc
      have hplain := hpre i (by simp)
      cases i <;> first | exact hplain.elim | exact ⟨by simp, id⟩
  · exact hne ⟨by simp, id⟩ (List.cons.inj hc).1
  · exact hne ⟨by simp, id⟩ (List.cons.inj hc).1
  · exact hne ⟨by simp, id⟩ (List.cons.inj hc).1
  · cases hc

theorem poolExec_freed {t : Option (Fin n)} {m : PoolMem n J}
    (h : poolExec t choice i m = some (m', new)) :
    m'.freed = m.freed ∨ ∃ block, i = .freeBlock block ∧ m'.freed = m.freed ++ [block] := by
  by_cases hi : i.Plain
  · exact .inl (poolExec_plain hi h).2
  · rcases poolExec_cases h with hnext | ⟨job, hadd⟩ | ⟨-, rfl⟩
    · cases i <;> try exact absurd trivial hi
      case clearPull =>
        obtain ⟨r, -, he⟩ := Option.map_eq_some_iff.1 hnext
        cases he
        exact .inl rfl
      case freeBlock block =>
        cases hnext
        exact .inr ⟨block, rfl, rfl⟩
      all_goals
        cases hnext
        exact .inl rfl
    · obtain ⟨-, rfl, -⟩ := poolAddWork_cases hadd
      exact .inl rfl
    · exact .inl rfl

/-! ## The whole pool -/

/-- What holds of a pool from `thpool_init` on. -/
structure DestroyInv (s : PoolThreads n J) : Prop where
  workers : ∀ w : Fin n, WorkerAt (s.code (some w))
  caller : CallerAt s
  alive : s.mem.tp.numThreadsAlive = totalSum aliveWeight s.code
  locks : ∀ t, Locks countUse (s.code t) (s.mem.owner .thcountLock = some t)
  jobs : ∃ queue, JobsAt s queue

theorem destroyInv_init : DestroyInv (destroyInit n J) where
  workers _ := .starting (k := 0) (by decide) rfl
  caller := .starting rfl rfl
  alive := by
    have hzero (t : Option (Fin n)) :
        codeSum aliveWeight ((destroyInit n J).code t) = 0 := by cases t <;> rfl
    simp only [totalSum, hzero, Finset.sum_const_zero]
    rfl
  locks t := by
    cases t <;> simp [destroyInit, Locks, countUse, threadDoCode]
  jobs := by
    have hzero (t : Option (Fin n)) :
        codeSum heldJobs ((destroyInit n J).code t) = 0 := by cases t <;> rfl
    refine ⟨[], .inl ⟨isRing_ringInit .., rfl⟩, ?_, rfl⟩
    simp only [totalSum, hzero, Finset.sum_const_zero]
    rfl

theorem DestroyInv.worker_at {w : Fin n} (h : DestroyInv s)
    (hc : s.code (some w) = i :: rest) : WorkerAt (i :: rest) :=
  hc ▸ h.workers w

/-- Another pool writes the flag. -/
theorem DestroyInv.keepalive (h : DestroyInv s) (b : Bool) :
    DestroyInv { s with mem := { s.mem with keepalive := b } } where
  workers := h.workers
  caller := by
    cases h.caller with
    | starting hc hf => exact .starting hc hf
    | serving hpre hc hf hw => exact .serving hpre hc hf hw
    | polling hpre hk hc hf hw => exact .polling hpre hk hc hf hw
    | clearing hpre hc hf hw => exact .clearing hpre hc hf hw
    | pulling hc hlen hf hw => exact .pulling hc hlen hf hw
    | freeing hc hlen hw => exact .freeing hc hlen hw
  alive := h.alive
  locks := h.locks
  jobs := by
    obtain ⟨queue, hq⟩ := h.jobs
    exact ⟨queue, hq.whole, hq.jobs, hq.jobHead⟩

/-- A step of a thread. -/
theorem DestroyInv.exec {t : Option (Fin n)} (h : DestroyInv s) (hc : s.code t = i :: rest)
    (hexec : poolExec t choice i s.mem = some (m', new)) :
    DestroyInv (s.replaced t m' new rest) where
  workers w := by
    cases t with
    | none =>
      rw [Threads.replaced_code_of_ne (by simp)]
      exact h.workers w
    | some u => exact workers_replaced h.workers ((h.worker_at hc).step hexec).1 w
  caller := by
    cases t with
    | none => exact h.caller.caller h.workers h.alive hc hexec
    | some u => exact h.caller.worker (h.worker_at hc) hc hexec
  alive := by
    have hsum := totalSum_update aliveWeight hc new
    have halive := poolExec_alive hexec
    rw [h.alive] at halive
    change m'.tp.numThreadsAlive = totalSum _ (Function.update _ _ _)
    omega
  locks := locks_step h.locks hc (poolExec_countUse hexec)
  jobs := by
    obtain ⟨queue, hq⟩ := h.jobs
    refine hq.step hc hexec ?_ ?_
    · rintro rfl
      cases t with
      | none => exact h.caller.len_ne_zero hc
      | some u => exact absurd rfl (h.worker_at hc).not_caller.1
    · rintro rfl
      cases t with
      | none => exact (h.caller.of_final hc trivial).2.1
      | some u => exact absurd trivial (h.worker_at hc).not_caller.2

theorem DestroyInv.step {label : DestroyLabel n J} {s' : PoolThreads n J} (h : DestroyInv s)
    (hst : destroyStep s label = some s') : DestroyInv s' := by
  cases label with
  | keepalive b =>
    cases hst
    exact h.keepalive b
  | step t choice =>
    obtain ⟨i, rest, m', new, hc, hexec, rfl⟩ := Threads.exists_exec hst
    exact h.exec hc hexec

/-- The workers have left when anything of the pool is freed. -/
theorem DestroyInv.freeing (h : DestroyInv s) (hfreed : s.mem.freed ≠ []) :
    (∀ i ∈ s.code none, i.Final) ∧ s.mem.tp.len = 0 ∧ ∀ w : Fin n, Left (s.code (some w)) := by
  cases h.caller with
  | starting _ hf | serving _ _ hf | polling _ _ _ hf | clearing _ _ hf | pulling _ _ hf =>
    exact absurd hf hfreed
  | freeing hfinal hlen hw => exact ⟨hfinal, hlen, hw⟩

/-- Nobody is about to queue or free a job when anything of the pool is freed. -/
theorem DestroyInv.jobs_freed (h : DestroyInv s) (hfreed : s.mem.freed ≠ []) :
    s.mem.freedJobs.Perm (List.range s.mem.tp.nextJob) := by
  obtain ⟨hfinal, hlen, hw⟩ := h.freeing hfreed
  obtain ⟨queue, hq⟩ := h.jobs
  have hqueue : queue = [] := by
    rcases hq.whole with hwhole | ⟨hnil, -⟩
    · exact List.length_eq_zero_iff.1 (hwhole.len.symm.trans hlen)
    · exact hnil
  have hheld : totalSum heldJobs s.code = 0 := by
    refine Finset.sum_eq_zero fun t _ => ?_
    cases t with
    | none =>
      refine codeSum_eq_zero fun i hi => ?_
      have hi := hfinal i hi
      cases i <;> first | exact hi.elim | rfl
    | some w => rcases hw w with hc | hc <;> rw [hc] <;> rfl
  have hjobs := hq.jobs
  rw [hqueue, hheld, Multiset.coe_nil, add_zero, add_zero] at hjobs
  exact Multiset.coe_eq_coe.1 hjobs

theorem DestroyInv.nodup (h : DestroyInv s) : s.mem.freedJobs.Nodup := by
  obtain ⟨queue, hq⟩ := h.jobs
  exact hq.nodup

/-! ## The last accesses -/

variable {block : PoolBlock} {label : DestroyLabel n J} {s' : PoolThreads n J}

/-- When the block is freed, the workers have returned. -/
def Gone (block : PoolBlock) (s : PoolThreads n J) : Prop :=
  block ∈ s.mem.freed → ∀ w : Fin n, s.code (some w) = []

theorem Gone.freesLast (h : Gone block s) (hinv : DestroyInv s) : FreesLast block s where
  safe hb w i hi := by
    rw [h hb w] at hi
    cases hi
  once := hinv.nodup
  all := hinv.jobs_freed

/-- The workers have returned, if the block is not freed under the mutex. -/
theorem Gone.step (h : Gone block s) (hinv : DestroyInv s) (hlabel : FreesUnlocked block s label)
    (hst : destroyStep s label = some s') : Gone block s' := by
  cases label with
  | keepalive b =>
    cases hst
    exact h
  | step t choice =>
    obtain ⟨i, rest, m', new, hc, hexec, rfl⟩ := Threads.exists_exec hst
    intro hgone w
    cases t with
    | some u =>
      rw [Threads.replaced_mem, ((hinv.worker_at hc).step hexec).2] at hgone
      cases hc.symm.trans (h hgone u)
    | none =>
      rw [Threads.replaced_code_of_ne (by simp)]
      rcases poolExec_freed hexec with hf | ⟨b, rfl, hf⟩
      · exact h (hf ▸ hgone) w
      · rw [Threads.replaced_mem, hf] at hgone
        rcases List.mem_append.1 hgone with hgone | hgone
        · exact h hgone w
        · obtain rfl := List.mem_singleton.1 hgone
          have howner := hlabel choice rfl (by rw [hc]; rfl)
          have hlocks := hinv.locks (some w)
          rcases (hinv.caller.of_final hc trivial).2.2 w with hleft | hleft
          · rw [howner, hleft] at hlocks
            cases hlocks.1
          · exact hleft

/-- A free of the block under the mutex leaves a worker the unlock. -/
theorem DestroyInv.freed_locked (h : DestroyInv s) (hlabel : ¬FreesUnlocked block s label)
    (hst : destroyStep s label = some s') : ¬FreesLast block s' := by
  simp only [FreesUnlocked, not_forall] at hlabel
  obtain ⟨choice, rfl, hhead, howner⟩ := hlabel
  obtain ⟨i, rest, m', new, hc, hexec, rfl⟩ := Threads.exists_exec hst
  obtain rfl : i = .freeBlock block := by simpa [hc] using hhead
  obtain ⟨t, ht⟩ := Option.ne_none_iff_exists'.1 howner
  obtain ⟨i, hi, huse⟩ := (h.locks t).exists_releases ht
  obtain rfl : i = .unlock .thcountLock := by
    cases i <;> try cases huse
    case unlock mutex => cases mutex <;> first | rfl | cases huse
    case lock mutex => cases mutex <;> cases huse
  cases t with
  | none => exact ((h.caller.of_final hc trivial).1 _ hi).elim
  | some w =>
    intro hlast
    have hfreed : block ∈ m'.freed := by
      cases poolExec_certain hexec trivial
      simp
    have htouches := hlast.safe hfreed w (.unlock .thcountLock) (by
      rwa [Threads.replaced_code_of_ne (by simp)])
    cases htouches

/-- In every run of a pool and for each of its blocks, the destruction frees the block after the
last access of every worker, and each job once, if and only if it does not free the block while a
thread has `thcount_lock`. -/
theorem freesLast_iff (block : PoolBlock)
    {tr : List (PoolThreads n J × DestroyLabel n J × PoolThreads n J)}
    (h : (destroySystem n J).Run tr s) :
    (∀ m ∈ tr, FreesLast block m.1 ∧ FreesLast block m.2.2) ↔
      ∀ m ∈ tr, FreesUnlocked block m.1 m.2.1 :=
  h.forall_iff (I := fun s => DestroyInv s ∧ Gone block s)
    (by
      rintro _ rfl
      exact ⟨destroyInv_init, fun hfreed => (by cases hfreed)⟩)
    (fun _ hs => hs.2.freesLast hs.1)
    (fun _ _ _ hs hlabel hst => ⟨hs.1.step hst, hs.2.step hs.1 hlabel hst⟩)
    fun _ _ _ hs hlabel hst => hs.1.freed_locked hlabel hst

/-- The next steps of a thread. -/
def stepsOf (t : Option (Fin n)) (k : ℕ) : List (DestroyLabel n J) :=
  List.replicate k (.step t .next)

/-- A step that keeps to `FreesUnlocked`. -/
def destroyStepUnlocked (block : PoolBlock) (s : PoolThreads n J) (label : DestroyLabel n J) :
    Option (PoolThreads n J) :=
  if (s.code none).head? = some (.freeBlock block) → s.mem.owner .thcountLock = none then
    destroyStep s label
  else none

/-- The worker starts, the client queues a job and calls `thpool_destroy`, the worker leaves, and
the caller goes on to the end. -/
def queuedLabels : List (DestroyLabel 1 Unit) :=
  stepsOf (some 0) 4 ++ stepsOf none 1 ++ [.step none (.addWork ())] ++ stepsOf none 10 ++
    stepsOf (some 0) 4 ++ stepsOf none 15

/-- A pool with a job that is still queued, destroyed after its only worker has left. -/
theorem freesLast_iff_queued : ∃ (s : PoolThreads 1 Unit)
    (tr : List (PoolThreads 1 Unit × DestroyLabel 1 Unit × PoolThreads 1 Unit)),
    (destroySystem 1 Unit).Run tr s ∧ tr.map (fun m => m.2.1) = queuedLabels ∧
    (∀ m ∈ tr, FreesLast .thpool m.1 ∧ FreesLast .thpool m.2.2) ∧
    .thpool ∈ s.mem.freed ∧ s.mem.freedJobs = [0] := by
  have hrun : (queuedLabels.foldlM (destroyStepUnlocked .thpool) (destroyInit 1 Unit)).any
      (fun s : PoolThreads 1 Unit => .thpool ∈ s.mem.freed ∧ s.mem.freedJobs = [0]) = true := by
    decide +kernel
  obtain ⟨s, hfold, hobs⟩ := (Option.any_eq_true _ _).1 hrun
  obtain ⟨hfreed, hjobs⟩ := of_decide_eq_true hobs
  let S : LTS (PoolThreads 1 Unit) (DestroyLabel 1 Unit) :=
    ⟨(destroySystem 1 Unit).init, fun s label t => destroyStepUnlocked .thpool s label = some t⟩
  obtain ⟨tr, hpath, hlabels⟩ :=
    LTS.Path.of_foldlM (S := S) (fun _ _ _ hst => hst) hfold
  have hstep {s label t} (hst : S.step s label t) :
      FreesUnlocked .thpool s label ∧ (destroySystem 1 Unit).step s label t := by
    change destroyStepUnlocked .thpool s label = some t at hst
    unfold destroyStepUnlocked at hst
    split at hst
    · exact ⟨fun _ _ => ‹_›, hst⟩
    · cases hst
  have hr : (destroySystem 1 Unit).Run tr s := ⟨_, rfl, hpath.mono fun _ _ _ hst => (hstep hst).2⟩
  refine ⟨s, tr, hr, hlabels, (freesLast_iff .thpool hr).2 fun m hm => ?_, hfreed, hjobs⟩
  exact (hstep (hpath.step_of_mem hm)).1

/-- An idle worker is woken and takes itself off the count, and the caller frees the pool before
the worker unlocks the mutex. -/
theorem not_freesLast :
    ¬∀ (n : ℕ) (J : Type) (tr : List (PoolThreads n J × DestroyLabel n J × PoolThreads n J))
      (s : PoolThreads n J), (destroySystem n J).Run tr s →
        ∀ m ∈ tr, FreesLast .thpool m.1 ∧ FreesLast .thpool m.2.2 := by
  intro hall
  have hrun : ((stepsOf (some 0) 8 ++ stepsOf none 9 ++ stepsOf (some 0) 8 ++
      stepsOf none 11).foldlM destroyStep (destroyInit 1 Unit)).any (fun s =>
        (destroyStep s (.step none .next)).any fun t : PoolThreads 1 Unit =>
          PoolBlock.thpool ∈ t.mem.freed ∧
            t.code (some 0) = [PoolInstr.unlock .thcountLock]) = true := by
    decide +kernel
  obtain ⟨s, hfold, hlast⟩ := (Option.any_eq_true _ _).1 hrun
  obtain ⟨t, hst, hobs⟩ := (Option.any_eq_true _ _).1 hlast
  obtain ⟨hfreed, hcode⟩ := of_decide_eq_true hobs
  obtain ⟨tr, hpath, -⟩ :=
    LTS.Path.of_foldlM (S := destroySystem 1 Unit) (fun _ _ _ hst => hst) hfold
  have hmove := hall 1 Unit _ t ⟨_, rfl, hpath.snoc hst⟩ (s, .step none .next, t) (by simp)
  cases hmove.2.safe hfreed 0 (.unlock .thcountLock) (by simp [hcode])

end Nowra
