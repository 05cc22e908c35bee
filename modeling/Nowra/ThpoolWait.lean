import Nowra.ThpoolQueue

/-!
# Waiting for the pool

`thpool_wait` polls `jobqueue->len` and `num_threads_working`, one read after the other and
without a lock, in three loops : continuous, exponential, and at the maximal interval. Each
read is one atomic step here (`thpoolWaitStep`), and what the clock and the interval decide
is left open.

The wait is a barrier (`wait_barrier`). A worker counts itself before it pulls and uncounts
itself after the job. Hence a job of a queue read empty is finished or held by a counted
worker (`Pool.Counted`), and the second read rules out the latter.
-/

namespace Nowra

variable {n : ℕ} {J ω : Type}

/-! ## `thpool_wait` -/

/-- The three loops of `thpool_wait`. -/
inductive WaitLoop
  | continuous
  | exponential
  | fallBack
  deriving DecidableEq

/-- Where a call of `thpool_wait` is. -/
inductive WaitPc
  | notCalled
  /-- At the read of `jobqueue->len`. -/
  | readLen (loop : WaitLoop)
  /-- At the read of `num_threads_working`, the length being `0`. -/
  | readWorking (loop : WaitLoop)
  /-- In the loop's body. -/
  | poll (loop : WaitLoop)
  | returned
  deriving DecidableEq

/-- What follows a loop. -/
def WaitLoop.next : WaitLoop → WaitPc
  | .continuous => .readLen .exponential
  | .exponential => .readLen .fallBack
  | .fallBack => .returned

/-- One atomic step of `thpool_wait`. After a body, `again` is what the clock
(`tpassed < timeout`) or the interval (`tv_sec < max_secs`) says. -/
def thpoolWaitStep (tp : Thpool J) (again : Bool) : WaitPc → Option WaitPc
  | .notCalled => some (.readLen .continuous)
  | .readLen loop => some (if tp.len ≠ 0 then .poll loop else .readWorking loop)
  | .readWorking loop => some (if tp.numThreadsWorking ≠ 0 then .poll loop else loop.next)
  | .poll .fallBack => some (.readLen .fallBack)
  | .poll loop => some (if again then .readLen loop else loop.next)
  | .returned => none

/-- A call of `thpool_wait`, with the jobs that had been added when it was made. -/
structure Waiter where
  pc : WaitPc
  before : List ℕ

/-- A pool together with calls of `thpool_wait`, one for each `ω`. -/
structure Waiting (n : ℕ) (J ω : Type) where
  pool : Pool n J
  waiter : ω → Waiter

/-- A step of the pool or of a waiting call. -/
inductive WaitLabel (n : ℕ) (J ω : Type)
  | pool (a : PoolLabel n J)
  | wait (w : ω) (again : Bool)

variable [DecidableEq ω]

/-- A call at its next point. When it is made, the jobs added so far are recorded. -/
def Waiter.moved (c : Waiter) (pushed : List ℕ) (pc : WaitPc) : Waiter :=
  ⟨pc, if c.pc = .notCalled then pushed else c.before⟩

/-- One step of the pool or of a waiting call. -/
def waitStep (s : Waiting n J ω) : WaitLabel n J ω → Option (Waiting n J ω)
  | .pool a => (poolStep s.pool a).map fun p => { s with pool := p }
  | .wait w again => (thpoolWaitStep s.pool.tp again (s.waiter w).pc).map fun pc =>
      { s with waiter := Function.update s.waiter w ((s.waiter w).moved s.pool.pushed pc) }

/-- `n` workers and any number of waiting calls under any interleaving. -/
def waitSystem (n : ℕ) (J ω : Type) [DecidableEq ω] : LTS (Waiting n J ω) (WaitLabel n J ω) where
  init s := s = ⟨poolInit n J, fun _ => ⟨.notCalled, []⟩⟩
  step s a t := waitStep s a = some t

/-- No pull is from an empty queue. -/
def Waiting.PullOk (s : Waiting n J ω) : WaitLabel n J ω → Prop
  | .pool a => s.pool.PullOk a
  | .wait _ _ => True

instance (s : Waiting n J ω) : (a : WaitLabel n J ω) → Decidable (s.PullOk a)
  | .pool a => inferInstanceAs (Decidable (s.pool.PullOk a))
  | .wait _ _ => inferInstanceAs (Decidable True)

/-! ## Counted workers -/

/-- `num_threads_working` counts the workers past their count, and a job that was pulled has
finished or is being run by one of them. -/
structure Pool.Counted (s : Pool n J) : Prop where
  working : s.tp.numThreadsWorking = threadCount ThreadPc.working s.thread
  running : ∀ x ∈ s.pulled, x ∈ s.finished ∨ ∃ i, s.thread i = .run x

theorem Pool.counted_init : (poolInit n J).Counted :=
  ⟨by simp [poolInit, thpoolInit, threadCount, ThreadPc.working], by simp [poolInit]⟩

/-- With no worker counted, everything pulled has finished. -/
theorem Pool.Counted.finished {s : Pool n J} (h : s.Counted)
    (hw : s.tp.numThreadsWorking = 0) : ∀ x ∈ s.pulled, x ∈ s.finished := by
  intro x hx
  refine (h.running x hx).resolve_right ?_
  rintro ⟨i, hi⟩
  have hpos : 0 < threadCount ThreadPc.working s.thread :=
    threadCount_pos.2 ⟨i, by rw [hi]; rfl⟩
  have hcount := h.working
  omega

/-- A worker that pulls is counted before and after, and runs what it pulls. One that finishes
a job keeps its count until the job is freed. -/
theorem Pool.Counted.step {s t : Pool n J} {a : PoolLabel n J} (h : s.Counted)
    (hst : poolStep s a = some t) : t.Counted := by
  cases a with
  | addWork job =>
    obtain ⟨⟨id, tp⟩, hadd, rfl⟩ := Option.map_eq_some_iff.1 hst
    exact ⟨(thpoolAddWork_frame hadd).1.trans h.working, h.running⟩
  | thread i =>
    obtain ⟨pc, tp, hmove, rfl⟩ := exists_move hst
    have hcount := threadCount_update ThreadPc.working s.thread i pc
    have hold := h.working
    -- a job run by another worker stays run by it
    have hother : ∀ x, s.thread i ≠ .run x → (∃ j, s.thread j = .run x) →
        ∃ j, Function.update s.thread i pc j = .run x := by
      rintro x hi ⟨j, hj⟩
      have hji : j ≠ i := fun he => hi (he ▸ hj)
      exact ⟨j, by rw [Function.update_of_ne hji, hj]⟩
    generalize hpc : s.thread i = pc₀ at hmove
    rw [hpc] at hcount hother
    have hquiet : (∀ x, pc₀ ≠ .run x) → ∀ x ∈ s.pulled, x ∈ s.finished ∨
        ∃ j, Function.update s.thread i pc j = .run x := fun hne x hx =>
      (h.running x hx).imp_right (hother x (hne x))
    cases hmove with
    | @pull x _ hp =>
      have hwork := (thpoolJobqueuePull_frame hp).1
      refine ⟨?_, fun y hy => ?_⟩
      · simp only [ThreadPc.working, Bool.toNat_true] at hcount
        simp only [Pool.moved_tp, Pool.moved_thread]
        omega
      · simp only [Pool.moved, hpc, pulledBy, finishedBy, List.append_nil] at hy ⊢
        rcases List.mem_append.1 hy with hy | hy
        · exact hquiet (by simp) y hy
        · exact Or.inr ⟨i, by rw [List.mem_singleton.1 hy, Function.update_self]⟩
    | @run x hm =>
      refine ⟨?_, fun y hy => ?_⟩
      · simp only [ThreadPc.working, Bool.toNat_true] at hcount
        simp only [Pool.moved_tp, Pool.moved_thread]
        omega
      · simp only [Pool.moved, hpc, pulledBy, finishedBy, List.append_nil] at hy ⊢
        by_cases hyx : y = x
        · exact Or.inl (by simp [hyx])
        · exact ((h.running y hy).imp_right (hother y (by simp [Ne.symm hyx]))).imp_left
            (List.mem_append_left _)
    | start | loop | wait | check | count | free | uncount | leave =>
      refine ⟨?_, ?_⟩
      · simp only [ThreadPc.working, Bool.toNat_true, Bool.toNat_false] at hcount
        simp only [Pool.moved_tp, Pool.moved_thread]
        omega
      · simpa [Pool.moved, hpc, pulledBy, finishedBy] using hquiet (by simp)

/-! ## The barrier -/

/-- The histories only grow. -/
theorem Pool.history_subset {s t : Pool n J} {a : PoolLabel n J} (hst : poolStep s a = some t) :
    s.pushed ⊆ t.pushed ∧ s.pulled ⊆ t.pulled ∧ s.finished ⊆ t.finished := by
  cases a with
  | addWork job =>
    obtain ⟨r, -, rfl⟩ := Option.map_eq_some_iff.1 hst
    exact ⟨List.subset_append_left _ _, List.Subset.refl _, List.Subset.refl _⟩
  | thread i =>
    obtain ⟨pc, tp, -, rfl⟩ := exists_move hst
    exact ⟨List.Subset.refl _, List.subset_append_left _ _, List.subset_append_left _ _⟩

/-- What a call of `thpool_wait` has made sure of, by where it is. -/
structure Waiter.Sound (c : Waiter) (p : Pool n J) : Prop where
  called : c.pc ≠ .notCalled → c.before ⊆ p.pushed
  readWorking : ∀ loop, c.pc = .readWorking loop → ∀ id ∈ c.before, .job id ∈ p.pulled
  returned : c.pc = .returned → ∀ id ∈ c.before, .job id ∈ p.finished

theorem Waiter.sound_notCalled (p : Pool n J) : Waiter.Sound ⟨.notCalled, []⟩ p :=
  ⟨fun h => (h rfl).elim, nofun, nofun⟩

/-- A step of the pool takes nothing back. -/
theorem Waiter.Sound.pool {c : Waiter} {p q : Pool n J} {a : PoolLabel n J} (h : c.Sound p)
    (hst : poolStep p a = some q) : c.Sound q := by
  obtain ⟨hpushed, hpulled, hfinished⟩ := Pool.history_subset hst
  exact ⟨fun hpc => List.Subset.trans (h.called hpc) hpushed,
    fun loop hpc id hid => hpulled (h.readWorking loop hpc id hid),
    fun hpc id hid => hfinished (h.returned hpc id hid)⟩

/-- With the queue's length `0`, everything pushed has been pulled. -/
theorem Pool.Inv.pulled_of_len {s : Pool n J} (h : s.Inv) (hlen : s.tp.len = 0) :
    ∀ id ∈ s.pushed, Node.job id ∈ s.pulled := by
  obtain ⟨l, -, hl, hpush, -⟩ := h.queue
  obtain rfl : l = [] := List.eq_nil_of_length_eq_zero (hl.symm.trans hlen)
  intro id hid
  have hmem := List.mem_map_of_mem (f := Node.job) hid
  rwa [hpush, List.append_nil] at hmem

/-- A step of the call keeps what it has made sure of : the read of the length finds every
earlier job pulled, and the read of the working count finds it finished. -/
theorem Waiter.Sound.wait {c : Waiter} {p : Pool n J} {again : Bool} {pc : WaitPc}
    (h : c.Sound p) (hinv : p.Inv) (hcount : p.Counted)
    (hst : thpoolWaitStep p.tp again c.pc = some pc) : (c.moved p.pushed pc).Sound p := by
  obtain ⟨pc₀, before⟩ := c
  have hbefore : ∀ loop, pc₀ = .readLen loop ∨ pc₀ = .readWorking loop ∨ pc₀ = .poll loop →
      before ⊆ p.pushed := by
    rintro loop (rfl | rfl | rfl) <;> exact h.called nofun
  cases pc₀ with
  | notCalled =>
    obtain rfl := Option.some.inj hst
    exact ⟨fun _ => by simp [moved], nofun, nofun⟩
  | readLen loop =>
    have hsub := hbefore loop (Or.inl rfl)
    obtain rfl := Option.some.inj hst
    refine ⟨fun _ => hsub, fun loop' hpc id hid => ?_, fun hpc => ?_⟩
    · have hlen : p.tp.len = 0 := by
        by_contra hne
        simp [moved, hne] at hpc
      exact hinv.pulled_of_len hlen id (hsub hid)
    · simp only [moved] at hpc
      split at hpc <;> cases hpc
  | readWorking loop =>
    have hsub := hbefore loop (Or.inr (Or.inl rfl))
    obtain rfl := Option.some.inj hst
    refine ⟨fun _ => hsub, fun loop' hpc => ?_, fun hpc id hid => ?_⟩
    · cases loop <;> simp only [moved, WaitLoop.next] at hpc <;> split at hpc <;> cases hpc
    · have hworking : p.tp.numThreadsWorking = 0 := by
        by_contra hne
        simp [moved, hne] at hpc
      exact hcount.finished hworking _ (h.readWorking loop rfl id hid)
  | poll loop =>
    have hsub := hbefore loop (Or.inr (Or.inr rfl))
    -- the last loop is left only at a read
    have hpc : ∃ loop', pc = .readLen loop' := by
      cases loop <;> cases again <;> exact ⟨_, (Option.some.inj hst).symm⟩
    obtain ⟨loop', rfl⟩ := hpc
    exact ⟨fun _ => hsub, nofun, nofun⟩
  | returned => cases hst

/-- The pool is sound and counted, and so is every call. -/
structure Waiting.Inv (s : Waiting n J ω) : Prop where
  pool : s.pool.Inv
  counted : s.pool.Counted
  waiter : ∀ w, (s.waiter w).Sound s.pool

theorem Waiting.Inv.step {s t : Waiting n J ω} {a : WaitLabel n J ω} (h : s.Inv)
    (hok : s.PullOk a) (hst : waitStep s a = some t) : t.Inv := by
  cases a with
  | pool a =>
    obtain ⟨p, hp, rfl⟩ := Option.map_eq_some_iff.1 hst
    exact ⟨h.pool.step hok hp, h.counted.step hp, fun w => (h.waiter w).pool hp⟩
  | wait w again =>
    obtain ⟨pc, hpc, rfl⟩ := Option.map_eq_some_iff.1 hst
    refine ⟨h.pool, h.counted, fun w' => ?_⟩
    rcases eq_or_ne w' w with rfl | hne
    · simpa using (h.waiter w').wait h.pool h.counted hpc
    · simpa [Function.update_of_ne hne] using h.waiter w'

theorem Waiting.inv_of_run {s : Waiting n J ω}
    {tr : List (Waiting n J ω × WaitLabel n J ω × Waiting n J ω)}
    (h : (waitSystem n J ω).Run tr s) (hok : ∀ m ∈ tr, m.1.PullOk m.2.1) : s.Inv := by
  obtain ⟨s₀, rfl, hp⟩ := h
  have hinit : Waiting.Inv (n := n) (J := J) (ω := ω) ⟨poolInit n J, fun _ => ⟨.notCalled, []⟩⟩ :=
    ⟨Pool.inv_init, Pool.counted_init, fun _ => Waiter.sound_notCalled _⟩
  exact (hp.invariant_of hinit (fun _ _ _ ht hC hst => ht.step hC hst) hok).1

/-- `thpool_wait` is a barrier : when a call returns, every job added before the call has
finished. -/
theorem wait_barrier {s : Waiting n J ω}
    {tr : List (Waiting n J ω × WaitLabel n J ω × Waiting n J ω)}
    (h : (waitSystem n J ω).Run tr s) (hok : ∀ m ∈ tr, m.1.PullOk m.2.1) (w : ω)
    (hret : (s.waiter w).pc = .returned) :
    ∀ id ∈ (s.waiter w).before, .job id ∈ s.pool.finished :=
  ((Waiting.inv_of_run h hok).waiter w).returned hret

/-- Two workers and two calls of the wait. The second is made when one job more has been added. -/
theorem wait_barrier_two : ∃ s : Waiting 2 ℕ Bool, (waitSystem 2 ℕ Bool).Reach s ∧
    (∀ w, (s.waiter w).pc = .returned) ∧ (s.waiter false).before = [0, 1] ∧
    (s.waiter true).before = [0, 1, 2] ∧ .job 2 ∈ s.pool.finished := by
  let add (job : ℕ) : WaitLabel 2 ℕ Bool := .pool (.addWork job)
  let work (i : Fin 2) (k : ℕ) : List (WaitLabel 2 ℕ Bool) := List.replicate k (.pool (.thread i))
  let wait (w : Bool) (k : ℕ) : List (WaitLabel 2 ℕ Bool) := List.replicate k (.wait w false)
  let step (s : Waiting 2 ℕ Bool) (a : WaitLabel 2 ℕ Bool) :=
    if s.PullOk a then waitStep s a else none
  have hrun : ((work 0 1 ++ work 1 1 ++ [add 7, add 8] ++ wait false 2 ++ work 0 4 ++ [add 9] ++
      wait true 1 ++ work 1 4 ++ work 0 8 ++ work 1 3 ++ work 0 3 ++ wait false 5 ++
      wait true 6).foldlM step ⟨poolInit 2 ℕ, fun _ => ⟨.notCalled, []⟩⟩).any (fun t =>
        (∀ w, (t.waiter w).pc = .returned) ∧ (t.waiter false).before = [0, 1] ∧
          (t.waiter true).before = [0, 1, 2]) = true := by
    decide +kernel
  obtain ⟨s, hst, hobs⟩ := (Option.any_eq_true _ _).1 hrun
  obtain ⟨hpc, hfalse, htrue⟩ := of_decide_eq_true hobs
  obtain ⟨tr, hp, -, hok⟩ := LTS.Path.of_foldlM_of (S := waitSystem 2 ℕ Bool)
    (fun _ _ _ h => h) hst
  exact ⟨s, ⟨tr, _, rfl, hp⟩, hpc, hfalse, htrue,
    wait_barrier ⟨_, rfl, hp⟩ hok true (hpc true) 2 (by simp [htrue])⟩

end Nowra
