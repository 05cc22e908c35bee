import Nowra.Shared
import Nowra.ThpoolWait

/-!
# Several thread pools

Any number of pools over the one file-level flag `threads_keepalive`. `thpool_init` sets the
flag, `thpool_destroy` clears it, and the workers of every pool test it. A pool goes through
`thpool_init`, is in use, and goes through `thpool_destroy` (`Life`), in any interleaving with
the other pools (`poolsSystem`).

A pool behaves as it could have done alone exactly if every test of the flag by one of its
workers finds what its own calls wrote last (`pools_independent_iff`). Enough for this is that
no other pool is destroyed while it is made or in use, and none is made while it is destroyed.
`pools_not_independent` has two pools that do not keep to it.
-/

namespace Nowra

variable {n : ℕ} {J ω ι : Type}

/-! ## The life of a pool -/

/-- Where the calls of `thpool_init` and `thpool_destroy` on a pool are. -/
inductive LifePc
  | notMade
  /-- In `thpool_init`, with `made` threads created. -/
  | making (made : ℕ)
  /-- `thpool_init` has returned. -/
  | live
  /-- At the read of `num_threads_alive` in `thpool_destroy`. -/
  | poll
  /-- At `thpool_bsem_post_all`. -/
  | post
  | freed
  deriving DecidableEq

/-- A pool from before `thpool_init` until after `thpool_destroy`, with the calls of
`thpool_wait` on it. -/
structure Life (n : ℕ) (J ω : Type) where
  pc : LifePc
  pool : Pool n J
  waiter : ω → WaitPc

/-- The next step of `thpool_init` or `thpool_destroy`, a call of `thpool_add_work`, a step of
a worker, or a step of a call of `thpool_wait`. -/
inductive LifeLabel (n : ℕ) (J ω : Type)
  | call
  | addWork (job : J)
  | thread (i : Fin n)
  | wait (w : ω) (again : Bool)

/-- The number of workers for an argument of `thpool_init`. -/
def threadsOf (threadsNum : ℤ) : ℕ :=
  if threadsNum = 0 ∨ threadsNum < 1 then 1 else threadsNum.toNat

/-- A pool whose threads have not started. -/
def poolMade (n : ℕ) (J : Type) : Pool n J :=
  { poolInit n J with
    tp := { thpoolInit J n with numThreadsAlive := 0 }
    thread := fun _ => .start }

/-- Post to all threads. -/
def thpoolBsemPostAll (tp : Thpool J) : Thpool J :=
  { tp with v := 1 }

/-- Pull and free `len` jobs, and reset the semaphore. -/
def thpoolJobqueueClear : (len : ℕ) → Thpool J → Option (Thpool J)
  | 0, tp => some { tp with v := 0, len := 0 }
  | len + 1, tp => do
    let (jobP, tp) ← thpoolJobqueuePull tp
    thpoolJobqueueClear len { tp with mem := Function.update tp.mem jobP none }

/-- One step of `thpool_init` or `thpool_destroy`. -/
def callStep (keepalive : Bool) (s : Life n J ω) : Option (Bool × Life n J ω) :=
  match s.pc with
  | .notMade => some (true, { s with pc := .making 0, pool := poolMade n J })
  | .making made =>
    if made < n then some (keepalive, { s with pc := .making (made + 1) })
    else if s.pool.tp.numThreadsAlive ≠ n then some (keepalive, s)
    else some (keepalive, { s with pc := .live })
  | .live => some (false, { s with pc := .poll })
  | .poll =>
    if s.pool.tp.numThreadsAlive ≠ 0 then some (keepalive, { s with pc := .post })
    else (thpoolJobqueueClear s.pool.tp.len s.pool.tp).map fun tp =>
      (keepalive, { s with pc := .freed, pool := { s.pool with tp := tp } })
  | .post => some (keepalive,
      { s with pc := .poll, pool := { s.pool with tp := thpoolBsemPostAll s.pool.tp } })
  | .freed => none

/-- The pool's address is known to its callers. -/
def LifePc.known : LifePc → Bool
  | .live | .poll | .post => true
  | _ => false

/-- Thread `i` has been created and its pool not freed. -/
def LifePc.runs (i : ℕ) : LifePc → Bool
  | .making made => i < made
  | .live | .poll | .post => true
  | _ => false

variable [DecidableEq ω]

/-- One step in the life of a pool. -/
def lifeStep (keepalive : Bool) (s : Life n J ω) : LifeLabel n J ω → Option (Bool × Life n J ω)
  | .call => callStep keepalive s
  | .addWork job =>
    if s.pc.known then
      (poolStep s.pool (.addWork job)).map fun pool => (keepalive, { s with pool := pool })
    else none
  | .thread i =>
    if s.pc.runs i then
      (threadStep keepalive (s.pool.thread i) s.pool.tp).map fun r =>
        (keepalive, { s with pool := s.pool.moved i r.1 r.2 })
    else none
  | .wait w again =>
    if s.pc.known then
      (thpoolWaitStep s.pool.tp again (s.waiter w)).map fun pc =>
        (keepalive, { s with waiter := Function.update s.waiter w pc })
    else none

/-- A pool of `n` workers as a component over the flag. -/
def lifeComp (n : ℕ) (J ω : Type) [DecidableEq ω] :
    Comp Bool (Life n J ω) (LifeLabel n J ω) where
  init := ⟨.notMade, poolMade n J, fun _ => .notCalled⟩
  step := lifeStep

variable [DecidableEq ι]

/-- The states of the pools made with the arguments `threadsNum` : the flag, and every pool. -/
abbrev Pools (threadsNum : ι → ℤ) (J ω : Type) : Type :=
  Bool × ∀ b, Life (threadsOf (threadsNum b)) J ω

/-- A step of one of the pools. -/
abbrev PoolsLabel (threadsNum : ι → ℤ) (J ω : Type) : Type :=
  Σ b, LifeLabel (threadsOf (threadsNum b)) J ω

/-- A move of the pools. -/
abbrev PoolsMove (threadsNum : ι → ℤ) (J ω : Type) : Type :=
  Pools threadsNum J ω × PoolsLabel threadsNum J ω × Pools threadsNum J ω

/-- Any number of pools over the flag. -/
def poolsSystem (threadsNum : ι → ℤ) (J ω : Type) [DecidableEq ω] :
    LTS (Pools threadsNum J ω) (PoolsLabel threadsNum J ω) :=
  interleave (fun b => lifeComp (threadsOf (threadsNum b)) J ω) false

/-- What the pool's own calls have written to the flag last. -/
def LifePc.keepalive : LifePc → Bool
  | .making _ | .live => true
  | _ => false

/-- `thpool_destroy` has been called. -/
def LifePc.destroyed : LifePc → Bool
  | .poll | .post | .freed => true
  | _ => false

/-! ## What a step can do -/

/-- The steps of `lifeStep`, with what each needs and writes. -/
inductive LifeMove (keepalive : Bool) (s : Life n J ω) :
    LifeLabel n J ω → Bool → Life n J ω → Prop
  | init (hpc : s.pc = .notMade) : LifeMove keepalive s .call true
      { s with pc := .making 0, pool := poolMade n J }
  | create {made : ℕ} (hpc : s.pc = .making made) (h : made < n) :
      LifeMove keepalive s .call keepalive { s with pc := .making (made + 1) }
  | spin {made : ℕ} (hpc : s.pc = .making made) (hmade : ¬made < n)
      (h : s.pool.tp.numThreadsAlive ≠ n) : LifeMove keepalive s .call keepalive s
  | ready {made : ℕ} (hpc : s.pc = .making made) (hmade : ¬made < n)
      (h : s.pool.tp.numThreadsAlive = n) :
      LifeMove keepalive s .call keepalive { s with pc := .live }
  | destroy (hpc : s.pc = .live) : LifeMove keepalive s .call false { s with pc := .poll }
  | alive (hpc : s.pc = .poll) (h : s.pool.tp.numThreadsAlive ≠ 0) :
      LifeMove keepalive s .call keepalive { s with pc := .post }
  | cleanup {tp : Thpool J} (hpc : s.pc = .poll) (h : s.pool.tp.numThreadsAlive = 0)
      (hclear : thpoolJobqueueClear s.pool.tp.len s.pool.tp = some tp) :
      LifeMove keepalive s .call keepalive
        { s with pc := .freed, pool := { s.pool with tp := tp } }
  | postAll (hpc : s.pc = .post) : LifeMove keepalive s .call keepalive
      { s with pc := .poll, pool := { s.pool with tp := thpoolBsemPostAll s.pool.tp } }
  | addWork {job : J} {pool : Pool n J} (hpc : s.pc.known = true)
      (h : poolStep s.pool (.addWork job) = some pool) :
      LifeMove keepalive s (.addWork job) keepalive { s with pool := pool }
  | thread {i : Fin n} {pc : ThreadPc} {tp : Thpool J} (hpc : s.pc.runs i = true)
      (h : threadStep keepalive (s.pool.thread i) s.pool.tp = some (pc, tp)) :
      LifeMove keepalive s (.thread i) keepalive { s with pool := s.pool.moved i pc tp }
  | wait {w : ω} {again : Bool} {pc : WaitPc} (hpc : s.pc.known = true)
      (h : thpoolWaitStep s.pool.tp again (s.waiter w) = some pc) :
      LifeMove keepalive s (.wait w again) keepalive
        { s with waiter := Function.update s.waiter w pc }

theorem lifeStep_move {keepalive keepalive' : Bool} {s t : Life n J ω} {a : LifeLabel n J ω}
    (h : lifeStep keepalive s a = some (keepalive', t)) :
    LifeMove keepalive s a keepalive' t := by
  cases a with
  | call =>
    simp only [lifeStep, callStep] at h
    cases hpc : s.pc with
    | notMade =>
      rw [hpc] at h
      cases h
      exact .init hpc
    | making made =>
      rw [hpc] at h
      dsimp only at h
      split at h
      · cases h
        exact .create hpc ‹_›
      · split at h
        · cases h
          exact .spin hpc ‹_› ‹_›
        · cases h
          exact .ready hpc ‹_› (not_not.1 ‹_›)
    | live =>
      rw [hpc] at h
      cases h
      exact .destroy hpc
    | poll =>
      rw [hpc] at h
      dsimp only at h
      split at h
      · cases h
        exact .alive hpc ‹_›
      · obtain ⟨tp, hclear, he⟩ := Option.map_eq_some_iff.1 h
        cases he
        exact .cleanup hpc (not_not.1 ‹_›) hclear
    | post =>
      rw [hpc] at h
      cases h
      exact .postAll hpc
    | freed =>
      rw [hpc] at h
      cases h
  | addWork job =>
    simp only [lifeStep] at h
    split at h
    · obtain ⟨pool, hst, he⟩ := Option.map_eq_some_iff.1 h
      cases he
      exact .addWork ‹_› hst
    · cases h
  | thread i =>
    simp only [lifeStep] at h
    split at h
    · obtain ⟨r, hst, he⟩ := Option.map_eq_some_iff.1 h
      cases he
      exact .thread ‹_› hst
    · cases h
  | wait w again =>
    simp only [lifeStep] at h
    split at h
    · obtain ⟨pc, hst, he⟩ := Option.map_eq_some_iff.1 h
      cases he
      exact .wait ‹_› hst
    · cases h

/-! ## The flag a pool has alone -/

/-- A step writes the flag at the call of `thpool_init` and at the call of `thpool_destroy`. -/
theorem lifeStep_flag {keepalive keepalive' : Bool} {s t : Life n J ω} {a : LifeLabel n J ω}
    (h : lifeStep keepalive s a = some (keepalive', t)) :
    (a = .call ∧ s.pc = .notMade ∧ t.pc = .making 0 ∧ keepalive' = true) ∨
    (a = .call ∧ s.pc = .live ∧ t.pc = .poll ∧ keepalive' = false) ∨
    (s.pc ≠ .notMade ∧ s.pc ≠ .freed ∧ t.pc.keepalive = s.pc.keepalive ∧
      keepalive' = keepalive) := by
  cases lifeStep_move h with
  | init hpc => exact Or.inl ⟨rfl, hpc, rfl, rfl⟩
  | destroy hpc => exact Or.inr (Or.inl ⟨rfl, hpc, rfl, rfl⟩)
  | create hpc _ | spin hpc _ _ | ready hpc _ _ | alive hpc _ | cleanup hpc _ _ | postAll hpc =>
    exact Or.inr (Or.inr (by simp [hpc, LifePc.keepalive]))
  | addWork hpc _ | thread hpc _ | wait hpc _ =>
    refine Or.inr (Or.inr ⟨?_, ?_, rfl, rfl⟩) <;> rintro he <;>
      simp [he, LifePc.known, LifePc.runs] at hpc

/-- Alone, the flag is what the pool's own calls have written last. -/
theorem lifeComp_tracks : (lifeComp n J ω).Tracks false fun s => s.pc.keepalive where
  init := rfl
  step {s a r} h := by
    rcases lifeStep_flag h with ⟨-, -, ht, hk⟩ | ⟨-, -, ht, hk⟩ | ⟨-, -, ht, hk⟩
    · rw [ht, hk]; rfl
    · rw [ht, hk]; rfl
    · rw [ht, hk]

/-- The step tests the flag. -/
def Life.Tests (s : Life n J ω) : LifeLabel n J ω → Prop
  | .thread i => s.pool.thread i = .loop ∨ s.pool.thread i = .check
  | _ => False

/-- Only the two tests tell one value of the flag from the other. -/
theorem threadStep_eq_iff {keepalive keepalive' : Bool} {pc pc' : ThreadPc} {tp tp' : Thpool J}
    (h : threadStep keepalive pc tp = some (pc', tp')) :
    threadStep keepalive' pc tp = some (pc', tp') ↔
      (pc = .loop ∨ pc = .check → keepalive = keepalive') := by
  cases pc with
  | loop | check =>
    cases h
    cases keepalive <;> cases keepalive' <;> simp [threadStep]
  | start | wait | count | pull | run | free | uncount | leave | exited =>
    exact iff_of_true h (by simp)

/-- Apart from the workers' steps, the flag does not decide what a step does to the pool. -/
theorem lifeStep_snd (k k' : Bool) (s : Life n J ω) {a : LifeLabel n J ω}
    (ha : ∀ i, a ≠ .thread i) : (lifeStep k s a).map Prod.snd = (lifeStep k' s a).map Prod.snd := by
  cases a with
  | call =>
    simp only [lifeStep, callStep]
    cases s.pc with
    | notMade | live | post | freed => rfl
    | making made =>
      dsimp only
      split
      · rfl
      · split <;> rfl
    | poll =>
      dsimp only
      split
      · rfl
      · simp [Function.comp_def]
  | addWork job | wait w again =>
    simp only [lifeStep]
    split
    · simp [Function.comp_def]
    · rfl
  | thread i => exact (ha i rfl).elim

/-- A step is one the pool makes alone if and only if it does not test the flag, or finds what
the pool's own calls have written last. -/
theorem atView_iff {keepalive keepalive' : Bool} {s t : Life n J ω} {a : LifeLabel n J ω}
    (h : lifeStep keepalive s a = some (keepalive', t)) :
    (lifeComp n J ω).AtView (fun s => s.pc.keepalive) (s, a, t) ↔
      (s.Tests a → keepalive = s.pc.keepalive) := by
  -- alone, the flag after the step is settled by the pool's state
  have hview : ∀ k, lifeStep s.pc.keepalive s a = some (k, t) →
      (lifeComp n J ω).AtView (fun s => s.pc.keepalive) (s, a, t) := by
    intro k hst
    obtain rfl : k = t.pc.keepalive := lifeComp_tracks.step hst
    exact hst
  have hother : (∀ i, a ≠ .thread i) →
      (lifeComp n J ω).AtView (fun s => s.pc.keepalive) (s, a, t) := by
    intro ha
    have hsnd := lifeStep_snd s.pc.keepalive keepalive s ha
    rw [h] at hsnd
    obtain ⟨⟨k, t'⟩, hst, rfl⟩ := Option.map_eq_some_iff.1 hsnd
    exact hview k hst
  cases a with
  | call | addWork | wait => exact iff_of_true (hother nofun) nofun
  | thread i =>
    cases lifeStep_move h with
    | @thread _ pc tp hpc hst =>
      rw [Life.Tests, ← threadStep_eq_iff hst]
      constructor
      · intro hat
        obtain ⟨r, hr, he⟩ : ∃ r, threadStep s.pc.keepalive (s.pool.thread i) s.pool.tp = some r ∧
            s.pool.moved i r.1 r.2 = s.pool.moved i pc tp := by
          simpa [Comp.AtView, lifeComp, lifeStep, hpc] using hat
        have hthread := congrFun (congrArg Pool.thread he) i
        have htp : r.2 = tp := congrArg Pool.tp he
        rw [Pool.moved_thread, Pool.moved_thread, Function.update_self, Function.update_self]
          at hthread
        rw [hr, ← hthread, ← htp]
      · intro hst'
        exact hview s.pc.keepalive (by simp [lifeStep, hpc, hst'])

/-! ## Acting alone -/

variable {threadsNum : ι → ℤ}

/-- What pool `b` does in a run, it could have done alone. -/
def ActsAlone (b : ι) (tr : List (PoolsMove threadsNum J ω)) : Prop :=
  ∃ tr' t', ((lifeComp (threadsOf (threadsNum b)) J ω).alone false).Run tr' t' ∧
    Comp.own tr' = moves b tr

/-- A test of the flag by a worker of `b` finds what `b`'s own calls have written last. -/
def FlagOk (b : ι) (s : Pools threadsNum J ω)
    (a : PoolsLabel threadsNum J ω) : Prop :=
  ∀ a', a = ⟨b, a'⟩ → (s.2 b).Tests a' → s.1 = (s.2 b).pc.keepalive

theorem atView_moves_iff {b : ι} {tr : List (PoolsMove threadsNum J ω)}
    {t : Pools threadsNum J ω} (h : (poolsSystem threadsNum J ω).Run tr t) :
    (∀ m ∈ moves b tr, (lifeComp _ J ω).AtView (fun s => s.pc.keepalive) m) ↔
      ∀ m ∈ tr, FlagOk b m.1 m.2.1 := by
  obtain ⟨s₀, -, hp⟩ := h
  have hlife : ∀ {s u a}, (s, ⟨b, a⟩, u) ∈ tr → lifeStep s.1 (s.2 b) a = some (u.1, u.2 b) :=
    fun hm => sharedStep_own (hp.step_of_mem hm)
  constructor
  · rintro hat ⟨s, a, u⟩ hm a' rfl
    exact (atView_iff (hlife hm)).1 (hat _ (mem_moves.2 ⟨s, a', u, hm, rfl⟩))
  · intro hflag m hm
    obtain ⟨s, a, u, hm', rfl⟩ := mem_moves.1 hm
    exact (atView_iff (hlife hm')).2 (hflag _ hm' a rfl)

/-! ## The flag in undisturbed runs -/

/-- No other pool is destroyed while `b` is made or in use, and no other pool is made while
`b` is destroyed. -/
def Undisturbed (b : ι) (s : Pools threadsNum J ω)
    (a : PoolsLabel threadsNum J ω) : Prop :=
  ∀ i ≠ b, a = ⟨i, .call⟩ →
    ((s.2 b).pc.keepalive = true → (s.2 i).pc ≠ .live) ∧
    ((s.2 b).pc = .poll ∨ (s.2 b).pc = .post → (s.2 i).pc ≠ .notMade)

/-- While pool `b` has threads, the flag is what its own calls have written last. -/
def OwnFlag (b : ι) (s : Pools threadsNum J ω) : Prop :=
  (s.2 b).pc = .notMade ∨ (s.2 b).pc = .freed ∨ s.1 = (s.2 b).pc.keepalive

theorem OwnFlag.step {b : ι} {s t : Pools threadsNum J ω}
    {a : PoolsLabel threadsNum J ω} (h : OwnFlag b s)
    (hund : Undisturbed b s a) (hst : (poolsSystem threadsNum J ω).step s a t) :
    OwnFlag b t := by
  obtain ⟨i, a⟩ := a
  have hlife : lifeStep s.1 (s.2 i) a = some (t.1, t.2 i) := sharedStep_own hst
  rcases eq_or_ne i b with rfl | hi
  · rcases lifeStep_flag hlife with ⟨-, -, ht, hk⟩ | ⟨-, -, ht, hk⟩ | ⟨h1, h2, ht, hk⟩
    · exact Or.inr (Or.inr (by rw [ht, hk]; rfl))
    · exact Or.inr (Or.inr (by rw [ht, hk]; rfl))
    · exact Or.inr (Or.inr (by rw [ht, hk]; exact (h.resolve_left h1).resolve_left h2))
  · rw [OwnFlag, sharedStep_frame hst hi]
    rcases lifeStep_flag hlife with ⟨ha, hpc, -, hk⟩ | ⟨ha, hpc, -, hk⟩ | ⟨-, -, -, hk⟩
    · have hund := (hund i hi (by rw [ha])).2
      cases hb : (s.2 b).pc <;> simp_all [LifePc.keepalive]
    · have hund := (hund i hi (by rw [ha])).1
      cases hb : (s.2 b).pc <;> simp_all [LifePc.keepalive]
    · rw [hk]
      exact h

theorem ownFlag_of_undisturbed {b : ι} {tr : List (PoolsMove threadsNum J ω)}
    {t : Pools threadsNum J ω} (h : (poolsSystem threadsNum J ω).Run tr t)
    (hund : ∀ m ∈ tr, Undisturbed b m.1 m.2.1) :
    OwnFlag b t ∧ ∀ m ∈ tr, FlagOk b m.1 m.2.1 := by
  obtain ⟨s₀, rfl, hp⟩ := h
  obtain ⟨ht, hall⟩ := hp.invariant_of (P := OwnFlag b) (Or.inl rfl)
    (fun _ _ _ hs hC hst => hs.step hC hst) hund
  refine ⟨ht, ?_⟩
  rintro ⟨s, a, u⟩ hm a rfl htest
  have hst : lifeStep s.1 (s.2 b) a = some (u.1, u.2 b) := sharedStep_own (hp.step_of_mem hm)
  rcases lifeStep_flag hst with ⟨rfl, -⟩ | ⟨rfl, -⟩ | ⟨h1, h2, -⟩
  · exact htest.elim
  · exact htest.elim
  · exact (((hall _ hm).1).resolve_left h1).resolve_left h2

/-! ## Workers and the flag -/

/-- The worker has left its loop. -/
def ThreadPc.left : ThreadPc → Bool
  | .leave | .exited => true
  | _ => false

/-- The worker is past the second test of the flag and pulls next. -/
def ThreadPc.pulls : ThreadPc → Bool
  | .count | .pull => true
  | _ => false

/-- The worker is running a job. -/
def ThreadPc.running : ThreadPc → Bool
  | .run _ => true
  | _ => false

theorem ThreadPc.exists_of_running {pc : ThreadPc} (h : pc.running = true) :
    ∃ x, pc = .run x := by
  cases pc with
  | run x => exact ⟨x, rfl⟩
  | start | loop | wait | check | count | pull | free | uncount | leave | exited => cases h

theorem threadMove_left {pc pc' : ThreadPc} {tp tp' : Thpool J} (h : ThreadMove tp pc pc' tp')
    (hpc : pc.left = false) : pc'.left = false := by
  cases h <;> simp_all [ThreadPc.left]

theorem threadStep_pulls {pc pc' : ThreadPc} {tp tp' : Thpool J}
    (h : threadStep false pc tp = some (pc', tp')) (hpc : pc.pulls = false) :
    pc'.pulls = false := by
  cases pc with
  | wait | run =>
    simp only [threadStep, thpoolBsemWait] at h
    split at h
    · cases h
      rfl
    · cases h
  | count | pull => cases hpc
  | start | loop | check | free | uncount | leave =>
    cases h
    rfl
  | exited => cases h

/-- No worker has left its loop. -/
def Pool.Stays (s : Pool n J) : Prop :=
  ∀ i, (s.thread i).left = false

theorem Pool.Stays.step {s t : Pool n J} {a : PoolLabel n J} (h : s.Stays)
    (hst : poolStep s a = some t) : t.Stays := by
  cases a with
  | addWork job =>
    obtain ⟨r, -, rfl⟩ := Option.map_eq_some_iff.1 hst
    exact h
  | thread i =>
    obtain ⟨pc, tp, hmove, rfl⟩ := exists_move hst
    intro j
    rcases eq_or_ne j i with rfl | hj
    · simpa using threadMove_left hmove (h j)
    · simpa [Function.update_of_ne hj] using h j

/-- The step of the pool with the flag set. -/
def LifeLabel.onPool : LifeLabel n J ω → Option (PoolLabel n J)
  | .addWork job => some (.addWork job)
  | .thread i => some (.thread i)
  | _ => none

/-- Until `thpool_destroy` is called, a pool alone is made, stays as it is, or takes a step
with the flag set. -/
theorem pool_of_atView {s t : Life n J ω} {a : LifeLabel n J ω}
    (h : (lifeComp n J ω).AtView (fun s => s.pc.keepalive) (s, a, t))
    (hd : t.pc.destroyed = false) : t.pool = poolMade n J ∨ (s.pc.destroyed = false ∧
      (t.pool = s.pool ∨ ∃ a', a.onPool = some a' ∧ poolStep s.pool a' = some t.pool)) := by
  have hst : lifeStep s.pc.keepalive s a = some (t.pc.keepalive, t) := h
  generalize t.pc.keepalive = k at hst
  cases lifeStep_move hst with
  | init => exact Or.inl rfl
  | create hpc _ | spin hpc _ _ | ready hpc _ _ => exact Or.inr ⟨by rw [hpc]; rfl, Or.inl rfl⟩
  | destroy | alive | cleanup | postAll => cases hd
  | addWork _ hp => exact Or.inr ⟨hd, Or.inr ⟨_, rfl, hp⟩⟩
  | wait => exact Or.inr ⟨hd, Or.inl rfl⟩
  | @thread i pc tp hpc hp =>
    have hkeep : s.pc.keepalive = true := by
      cases hs : s.pc <;> simp_all [LifePc.runs, LifePc.destroyed, LifePc.keepalive]
    exact Or.inr ⟨hd, Or.inr ⟨_, rfl, poolStep_of_move rfl (threadStep_iff.1 (hkeep ▸ hp))⟩⟩

/-- What a pool has when it is made, and keeps with the flag set, it has until
`thpool_destroy` is called. -/
theorem before_destroy {b : ι} {P : Pool (threadsOf (threadsNum b)) J → Prop}
    {R : Pool (threadsOf (threadsNum b)) J → PoolLabel (threadsOf (threadsNum b)) J → Prop}
    {tr : List (PoolsMove threadsNum J ω)} {t : Pools threadsNum J ω}
    (h : (poolsSystem threadsNum J ω).Run tr t) (hflag : ∀ m ∈ tr, FlagOk b m.1 m.2.1)
    (hR : ∀ m ∈ moves b tr, ∀ a, m.2.1.onPool = some a → R m.1.pool a)
    (hmade : P (poolMade _ J)) (hstep : ∀ p a q, P p → R p a → poolStep p a = some q → P q)
    (hd : (t.2 b).pc.destroyed = false) : P (t.2 b).pool := by
  have hat := (atView_moves_iff h).2 hflag
  refine moves_invariant (P := fun s => s.pc.destroyed = false → P s.pool) h (fun _ => hmade) ?_
    (fun m hm => And.intro (hat m hm) (hR m hm)) hd
  rintro s a u hs ⟨hat, hR⟩ hd
  rcases pool_of_atView hat hd with hpool | ⟨hd', hpool | ⟨a', ha', hst⟩⟩
  · exact hpool ▸ hmade
  · exact hpool ▸ hs hd'
  · exact hstep _ _ _ (hs hd') (hR a' ha') hst

/-- In a pool being destroyed that acts alone, no worker goes on to a pull. -/
theorem pulls_of_atView {s t : Life n J ω} {a : LifeLabel n J ω}
    (h : (lifeComp n J ω).AtView (fun s => s.pc.keepalive) (s, a, t))
    (hd : s.pc.destroyed = true) (i : Fin n) (hi : (s.pool.thread i).pulls = false) :
    (t.pool.thread i).pulls = false := by
  have hst : lifeStep s.pc.keepalive s a = some (t.pc.keepalive, t) := h
  generalize t.pc.keepalive = k at hst
  have hkeep : s.pc.keepalive = false := by
    cases hs : s.pc <;> simp_all [LifePc.destroyed, LifePc.keepalive]
  cases lifeStep_move hst with
  | init hpc | create hpc _ | spin hpc _ _ | ready hpc _ _ | destroy hpc => rw [hpc] at hd; cases hd
  | alive | cleanup | postAll | wait => exact hi
  | addWork _ hp =>
    obtain ⟨r, -, rfl⟩ := Option.map_eq_some_iff.1 hp
    exact hi
  | @thread j pc tp hpc hp =>
    rw [hkeep] at hp
    rcases eq_or_ne i j with rfl | hij
    · simpa using threadStep_pulls hp hi
    · simpa [Function.update_of_ne hij] using hi

/-! ## Jobs that can still be executed -/

/-- Whatever jobs are added to a pool of the system, its workers alone can go on to finish
every job added to it. -/
def LTS.Serves {σ α : Type} (S : LTS σ α) (pool : σ → Pool n J) (label : PoolLabel n J → α)
    (s : σ) : Prop :=
  ∀ jobs : List J, ∃ tr t tr' u, S.Path s tr t ∧
    tr.map (fun m => m.2.1) = jobs.map (fun job => label (.addWork job)) ∧
    S.Path t tr' u ∧ (∀ m ∈ tr', ∃ i, m.2.1 = label (.thread i)) ∧
    ∀ id ∈ (pool u).pushed, Node.job id ∈ (pool u).finished

/-- A pool with the flag set serves. -/
def Pool.Serves (s : Pool n J) : Prop :=
  (poolSystem n J).Serves (fun s => s) (fun a => a) s

namespace Pool

theorem woken_made : (poolMade n J).Woken :=
  ⟨inv_init.of_eq rfl rfl rfl rfl rfl rfl rfl (fun _ => rfl) nofun,
    by simp [poolMade, thpoolInit], by simp [poolMade]⟩

theorem counted_made : (poolMade n J).Counted :=
  ⟨by simp [poolMade, thpoolInit, threadCount, ThreadPc.working], by simp [poolMade, poolInit]⟩

theorem WorkersReach.counted {s t : Pool n J} (h : s.WorkersReach t) (hs : s.Counted) :
    t.Counted := by
  obtain ⟨tr, hp, -⟩ := h
  exact (hp.invariant hs fun _ _ _ ht hst => ht.step hst).1

/-- The workers alone can finish what they have in hand. -/
theorem Woken.workersReach_idle {s : Pool n J} (h : s.Woken) :
    ∃ t, s.WorkersReach t ∧ t.tp.len = s.tp.len ∧ ∀ i, (t.thread i).running = false := by
  induction hk : threadCount ThreadPc.running s.thread generalizing s with
  | zero =>
    refine ⟨s, .refl s, rfl, fun i => Bool.eq_false_iff.2 fun hi => ?_⟩
    have hpos := threadCount_pos.2 ⟨i, hi⟩
    omega
  | succ k ih =>
    obtain ⟨i, hi⟩ := threadCount_pos.1 (Nat.lt_of_lt_of_eq k.succ_pos hk.symm)
    obtain ⟨x, hx⟩ := ThreadPc.exists_of_running hi
    have hmem := (h.inv.inHand i x (by rw [hx]; rfl)).2
    have hst := poolStep_of_move hx (.run hmem)
    have hok : s.PullOk (.thread i) := by simp [PullOk, hx]
    have hcount := threadCount_update ThreadPc.running s.thread i (.free x)
    simp only [hx, ThreadPc.running, Bool.toNat_true, Bool.toNat_false] at hcount
    obtain ⟨t, hr, hlen, ht⟩ := ih (h.step hok hst) (by rw [moved_thread]; omega)
    exact ⟨t, (WorkersReach.of_step hst hok).trans hr, hlen, ht⟩

/-- The workers alone can finish every job that was added. -/
theorem Woken.workersReach_finished {s : Pool n J} (h : s.Woken) (hc : s.Counted) (hn : 1 ≤ n) :
    ∃ t, s.WorkersReach t ∧ ∀ id ∈ t.pushed, Node.job id ∈ t.finished := by
  obtain ⟨t, hr, hlen⟩ := h.workersReach_empty hn
  obtain ⟨u, hr', hlen', hidle⟩ := (hr.woken h).workersReach_idle
  have hu := hr.trans hr'
  refine ⟨u, hu, fun id hid => ?_⟩
  have hpulled := (hu.woken h).inv.pulled_of_len (hlen'.trans hlen) id hid
  refine ((hu.counted hc).running _ hpulled).resolve_right ?_
  rintro ⟨i, hi⟩
  have hi' := hidle i
  simp [hi, ThreadPc.running] at hi'

/-- Jobs can be added to a sound queue. -/
theorem Woken.addWorks {s : Pool n J} (h : s.Woken) (hc : s.Counted) (jobs : List J) :
    ∃ tr t, (poolSystem n J).Path s tr t ∧
      tr.map (fun m => m.2.1) = jobs.map PoolLabel.addWork ∧ t.Woken ∧ t.Counted := by
  induction jobs generalizing s with
  | nil => exact ⟨[], s, .nil, rfl, h, hc⟩
  | cons job jobs ih =>
    obtain ⟨l, hr, -, hpush, -⟩ := h.inv.queue
    have hnew : .job s.tp.nextJob ∉ l := by
      intro hx
      have hmem : Node.job s.tp.nextJob ∈ s.pushed.map Node.job := by rw [hpush]; simp [hx]
      simp [h.inv.fresh] at hmem
    obtain ⟨ring, heq, -⟩ := thpoolAddWork_eq job hr hnew
    obtain ⟨t, hst⟩ : ∃ t, poolStep s (.addWork job) = some t := by simp [poolStep, heq]
    obtain ⟨tr, u, hp, hmap, hu⟩ := ih (h.step (a := .addWork job) trivial hst) (hc.step hst)
    exact ⟨_, u, hp.cons hst, by simp [hmap], hu⟩

theorem Woken.serves {s : Pool n J} (h : s.Woken) (hc : s.Counted) (hn : 1 ≤ n) : s.Serves := by
  intro jobs
  obtain ⟨tr, t, hp, hmap, hw, hc'⟩ := h.addWorks hc jobs
  obtain ⟨u, ⟨tr', hq, hall⟩, hfin⟩ := hw.workersReach_finished hc' hn
  exact ⟨tr, t, tr', u, hp, hmap, hq, fun m hm => (hall m hm).1, hfin⟩

end Pool

/-- The same step in the life of the pool. -/
def PoolLabel.onLife : PoolLabel n J → LifeLabel n J ω
  | .addWork job => .addWork job
  | .thread i => .thread i

theorem lifeStep_onLife {s : Life n J ω} {p : Pool n J} {a : PoolLabel n J}
    (hlive : s.pc = .live) (h : poolStep s.pool a = some p) :
    lifeStep true s a.onLife = some (true, { s with pool := p }) := by
  cases a with
  | addWork job => simp [PoolLabel.onLife, lifeStep, hlive, LifePc.known, h]
  | thread i =>
    obtain ⟨r, hr, rfl⟩ := Option.map_eq_some_iff.1 h
    simp [PoolLabel.onLife, lifeStep, hlive, LifePc.runs, hr]

/-- While the flag is set and pool `b` is in use, it can do in company what a pool with the
flag set can do. -/
theorem path_of_pool {b : ι} {s : Pools threadsNum J ω} (hset : s.1 = true)
    (hlive : (s.2 b).pc = .live)
    {tr : List (Pool (threadsOf (threadsNum b)) J × PoolLabel (threadsOf (threadsNum b)) J ×
      Pool (threadsOf (threadsNum b)) J)} {p : Pool (threadsOf (threadsNum b)) J}
    (hp : (poolSystem _ J).Path (s.2 b).pool tr p) :
    ∃ tr', (poolsSystem threadsNum J ω).Path s tr'
      (true, Function.update s.2 b { s.2 b with pool := p }) ∧
      tr'.map (fun m => m.2.1) = (tr.map fun m => m.2.1).map fun a => ⟨b, a.onLife⟩ := by
  obtain ⟨tr', hp', hmap⟩ : ∃ tr', ((lifeComp (threadsOf (threadsNum b)) J ω).alone false).Path
      (s.1, s.2 b) tr' (true, { s.2 b with pool := p }) ∧
      tr'.map (fun m => m.2.1) = (tr.map fun m => m.2.1).map PoolLabel.onLife := by
    induction hp with
    | nil => exact ⟨[], hset ▸ .nil, rfl⟩
    | @snoc tr p q a _ hst ih =>
      obtain ⟨tr', hp', hmap⟩ := ih
      exact ⟨_, hp'.snoc (a := a.onLife)
        (lifeStep_onLife (s := { s.2 b with pool := p }) hlive hst), by simp [hmap]⟩
  obtain ⟨tr'', hp'', hmap'⟩ := path_of_alone (b := b) (s := s)
    (K := fun b => lifeComp (threadsOf (threadsNum b)) J ω) hp'
  exact ⟨tr'', hp'', by rw [hmap', hmap, List.map_map]; rfl⟩

theorem one_le_threadsOf (threadsNum : ℤ) : 1 ≤ threadsOf threadsNum := by
  unfold threadsOf
  split <;> omega

/-- Pool `b` serves in company. -/
def Serves (b : ι) (s : Pools threadsNum J ω) : Prop :=
  (poolsSystem threadsNum J ω).Serves (fun s => (s.2 b).pool) (fun a => ⟨b, a.onLife⟩) s

/-- With the flag set, a pool in use serves as it would alone. -/
theorem serves_of_flag {b : ι} {s : Pools threadsNum J ω} (hset : s.1 = true)
    (hlive : (s.2 b).pc = .live) (h : (s.2 b).pool.Serves) : Serves b s := by
  intro jobs
  obtain ⟨tr, p, tr', q, hp, hmap, hq, hall, hfin⟩ := h jobs
  obtain ⟨tr₁, hp₁, hmap₁⟩ := path_of_pool hset hlive hp
  have hq' : (poolSystem _ J).Path
      (Function.update s.2 b { s.2 b with pool := p } b).pool tr' q := by
    rw [Function.update_self]
    exact hq
  obtain ⟨tr₂, hp₂, hmap₂⟩ := path_of_pool (b := b)
    (s := (true, Function.update s.2 b { s.2 b with pool := p })) rfl (by simpa using hlive) hq'
  refine ⟨tr₁, _, tr₂, _, hp₁, by rw [hmap₁, hmap, List.map_map]; rfl, hp₂, fun m hm => ?_,
    by simpa using hfin⟩
  have hlab : m.2.1 ∈ tr₂.map fun m => m.2.1 := List.mem_map_of_mem hm
  rw [hmap₂, List.map_map] at hlab
  obtain ⟨m', hm', he⟩ := List.mem_map.1 hlab
  obtain ⟨i, hi⟩ := hall m' hm'
  exact ⟨i, by rw [← he, Function.comp_apply, hi]⟩

/-- Until a pool is freed, its jobs are numbered from `0`. -/
def Life.Fresh (s : Life n J ω) : Prop :=
  s.pc ≠ .freed → s.pool.pushed = List.range s.pool.tp.nextJob

theorem threadStep_nextJob {keepalive : Bool} {pc pc' : ThreadPc} {tp tp' : Thpool J}
    (h : threadStep keepalive pc tp = some (pc', tp')) : tp'.nextJob = tp.nextJob := by
  cases pc with
  | wait | run =>
    simp only [threadStep, thpoolBsemWait] at h
    split at h
    · cases h
      rfl
    · cases h
  | start | loop | check | count | free | uncount | leave =>
    cases h
    rfl
  | pull =>
    obtain ⟨r, hp, he⟩ := Option.map_eq_some_iff.1 h
    cases he
    exact (thpoolJobqueuePull_frame hp).2
  | exited => cases h

theorem Life.Fresh.step {keepalive keepalive' : Bool} {s t : Life n J ω} {a : LifeLabel n J ω}
    (h : s.Fresh) (hst : lifeStep keepalive s a = some (keepalive', t)) : t.Fresh := by
  intro hfreed
  cases lifeStep_move hst with
  | init => rfl
  | cleanup => exact (hfreed rfl).elim
  | create hpc _ | spin hpc _ _ | ready hpc _ _ | destroy hpc | alive hpc _ | postAll hpc =>
    exact h (by rw [hpc]; nofun)
  | wait => exact h hfreed
  | addWork _ hp =>
    obtain ⟨⟨id, tp⟩, hadd, rfl⟩ := Option.map_eq_some_iff.1 hp
    obtain ⟨-, rfl, hnext⟩ := thpoolAddWork_frame hadd
    rw [hnext, List.range_succ, ← h hfreed]
  | thread _ hp => exact (h hfreed).trans (by rw [Pool.moved_tp, threadStep_nextJob hp])

theorem fresh_of_run {b : ι} {tr : List (PoolsMove threadsNum J ω)} {t : Pools threadsNum J ω}
    (h : (poolsSystem threadsNum J ω).Run tr t) : (t.2 b).Fresh := by
  refine moves_invariant (b := b) (P := fun s => s.Fresh)
    (K := fun b => lifeComp (threadsOf (threadsNum b)) J ω) h (fun _ => rfl) ?_
    fun m hm => exists_step_of_mem_moves h hm
  rintro s a u hs ⟨k, k', hst⟩
  exact hs.step hst

/-- The worker has a job in hand, or pulls one before it tests the flag again. -/
def ThreadPc.busy : ThreadPc → Bool
  | .count | .pull | .run _ => true
  | _ => false

/-- With the flag clear, a job that a worker finishes is one it was busy with. -/
theorem threadStep_busy {pc pc' : ThreadPc} {tp tp' : Thpool J}
    (h : threadStep false pc tp = some (pc', tp')) :
    (finishedBy pc).length + pc'.busy.toNat ≤ pc.busy.toNat := by
  cases pc with
  | wait | run =>
    simp only [threadStep, thpoolBsemWait] at h
    split at h
    · cases h
      exact le_rfl
    · cases h
  | count | start | loop | check | free | uncount | leave =>
    cases h
    exact le_rfl
  | pull =>
    obtain ⟨r, -, he⟩ := Option.map_eq_some_iff.1 h
    cases he
    exact le_rfl
  | exited => cases h

/-- Adding jobs leaves the flag and the finished jobs alone. -/
theorem addWorks_path {b : ι} {s t : Pools threadsNum J ω} {tr : List (PoolsMove threadsNum J ω)}
    (hp : (poolsSystem threadsNum J ω).Path s tr t)
    (hall : ∀ m ∈ tr, ∃ job, m.2.1 = ⟨b, .addWork job⟩) : t.1 = s.1 ∧
      (t.2 b).pc = (s.2 b).pc ∧ (t.2 b).pool.finished = (s.2 b).pool.finished ∧
      (t.2 b).pool.pushed.length = (s.2 b).pool.pushed.length + tr.length := by
  induction hp with
  | nil => exact ⟨rfl, rfl, rfl, rfl⟩
  | @snoc tr t u a _ hst ih =>
    obtain ⟨hflag, hpc, hfin, hlen⟩ := ih fun m hm => hall m (List.mem_append_left _ hm)
    obtain ⟨job, rfl⟩ : ∃ job, a = ⟨b, .addWork job⟩ := hall (t, a, u) (by simp)
    have hlife : lifeStep t.1 (t.2 b) (.addWork job) = some (u.1, u.2 b) := sharedStep_own hst
    generalize u.1 = k, u.2 b = u at hlife ⊢
    cases lifeStep_move hlife with
    | addWork _ hp =>
      obtain ⟨r, -, rfl⟩ := Option.map_eq_some_iff.1 hp
      exact ⟨hflag, hpc, hfin, by simp [hlen, Nat.add_assoc]⟩

/-- With the flag clear, the workers finish no more than what they are busy with. -/
theorem finished_of_clear {b : ι} {s t : Pools threadsNum J ω}
    {tr : List (PoolsMove threadsNum J ω)} (hp : (poolsSystem threadsNum J ω).Path s tr t)
    (hall : ∀ m ∈ tr, ∃ i, m.2.1 = ⟨b, .thread i⟩) (hclear : s.1 = false) :
    (t.2 b).pool.pushed = (s.2 b).pool.pushed ∧ (t.2 b).pool.finished.length ≤
      (s.2 b).pool.finished.length + threadsOf (threadsNum b) := by
  have hinv := (hp.invariant_of (C := fun _ a => ∃ i, a = ⟨b, .thread i⟩)
    (P := fun t => t.1 = false ∧ (t.2 b).pool.pushed = (s.2 b).pool.pushed ∧
      (t.2 b).pool.finished.length + threadCount ThreadPc.busy (t.2 b).pool.thread ≤
        (s.2 b).pool.finished.length + threadCount ThreadPc.busy (s.2 b).pool.thread)
    ⟨hclear, rfl, le_rfl⟩ ?_ hall).1
  · have hle := threadCount_le ThreadPc.busy (s.2 b).pool.thread
    exact ⟨hinv.2.1, by omega⟩
  · rintro t _ u ⟨hflag, hpush, hle⟩ ⟨i, rfl⟩ hst
    have hlife : lifeStep t.1 (t.2 b) (.thread i) = some (u.1, u.2 b) := sharedStep_own hst
    rw [hflag] at hlife
    generalize u.1 = k, u.2 b = u at hlife ⊢
    cases lifeStep_move hlife with
    | @thread _ pc tp _ hth =>
      have hbusy := threadStep_busy hth
      have hcount := threadCount_update ThreadPc.busy (t.2 b).pool.thread i pc
      refine ⟨rfl, hpush, ?_⟩
      simp only [Pool.moved, List.length_append]
      omega

/-- With the flag clear, a pool in use does not serve : the workers leave jobs behind if there
are more than they have finished and are busy with. -/
theorem not_serves_of_clear [Inhabited J] {b : ι} {tr : List (PoolsMove threadsNum J ω)}
    {s : Pools threadsNum J ω} (h : (poolsSystem threadsNum J ω).Run tr s)
    (hlive : (s.2 b).pc = .live) (hclear : s.1 = false) : ¬Serves b s := by
  intro hserves
  obtain ⟨tr₁, t, tr₂, u, hp, hmap, hp', hall, hfin⟩ := hserves
    (List.replicate ((s.2 b).pool.finished.length + threadsOf (threadsNum b) + 1) default)
  have hadds : ∀ m ∈ tr₁, ∃ job, m.2.1 = ⟨b, .addWork job⟩ := by
    intro m hm
    have hlab : m.2.1 ∈ tr₁.map fun m => m.2.1 := List.mem_map_of_mem hm
    rw [hmap] at hlab
    obtain ⟨job, -, he⟩ := List.mem_map.1 hlab
    exact ⟨job, he.symm⟩
  obtain ⟨hflag, hpc, hfinished, hpushed⟩ := addWorks_path hp hadds
  obtain ⟨hpush, hle⟩ := finished_of_clear hp' hall (hflag.trans hclear)
  have hlen : tr₁.length = (s.2 b).pool.finished.length + threadsOf (threadsNum b) + 1 := by
    simpa using congrArg List.length hmap
  -- all the jobs pushed are different, and in the end all of them have finished
  obtain ⟨s₀, hs₀, hp₀⟩ := h
  have hfresh : (t.2 b).pool.pushed = List.range (t.2 b).pool.tp.nextJob :=
    fresh_of_run ⟨s₀, hs₀, hp₀.trans hp⟩ (by rw [hpc, hlive]; nofun)
  have hnodup : ((t.2 b).pool.pushed.map Node.job).Nodup := by
    rw [hfresh]
    exact List.nodup_range.map fun _ _ h => Node.job.inj h
  have hsub : (t.2 b).pool.pushed.map Node.job ⊆ (u.2 b).pool.finished := by
    intro x hx
    obtain ⟨id, hid, rfl⟩ := List.mem_map.1 hx
    exact hfin id (hpush ▸ hid)
  have hall : (t.2 b).pool.pushed.length ≤ (u.2 b).pool.finished.length := by
    simpa using (hnodup.subperm hsub).length_le
  rw [hfinished] at hle
  omega

/-! ## Independence -/

/-- Pool `b` is independent of the other pools in a run that ends in `t` : what it did it could
have done alone, its workers leave their loop only once `thpool_destroy` is called, from then
on none goes on to a pull, and while it is in use it serves as it would alone. -/
structure Independent (b : ι) (tr : List (PoolsMove threadsNum J ω))
    (t : Pools threadsNum J ω) : Prop where
  alone : ActsAlone b tr
  stays : ∀ i, ((t.2 b).pool.thread i).left = true → (t.2 b).pc.destroyed = true
  pulls : ∀ m ∈ moves b tr, m.1.pc.destroyed = true →
    ∀ i, (m.1.pool.thread i).pulls = false → (m.2.2.pool.thread i).pulls = false
  serves : (t.2 b).pc = .live → (t.2 b).pool.Serves → Serves b t

/-- The step does not pull from an empty queue. -/
def Life.PullOk (s : Life n J ω) (a : LifeLabel n J ω) : Prop :=
  ∀ a', a.onPool = some a' → s.pool.PullOk a'

theorem actsAlone_iff {b : ι} {tr : List (PoolsMove threadsNum J ω)}
    {t : Pools threadsNum J ω} (h : (poolsSystem threadsNum J ω).Run tr t) :
    ActsAlone b tr ↔ ∀ m ∈ tr, FlagOk b m.1 m.2.1 :=
  (moves_alone_iff (b := b) (K := fun b => lifeComp (threadsOf (threadsNum b)) J ω)
    lifeComp_tracks h).trans (atView_moves_iff h)

theorem independent_of_flag {b : ι} {tr : List (PoolsMove threadsNum J ω)}
    {t : Pools threadsNum J ω} (h : (poolsSystem threadsNum J ω).Run tr t)
    (hflag : ∀ m ∈ tr, FlagOk b m.1 m.2.1)
    (hset : (t.2 b).pc = .live → (t.2 b).pool.Serves → t.1 = true) : Independent b tr t where
  alone := (actsAlone_iff h).2 hflag
  stays i hi := by
    by_contra hd
    have hstays := before_destroy (R := fun _ _ => True) (P := Pool.Stays) h hflag
      (fun _ _ _ _ => trivial) (fun _ => rfl) (fun _ _ _ hs _ hst => hs.step hst)
      (Bool.eq_false_iff.2 hd) i
    simp [hstays] at hi
  pulls m hm hd i hi := pulls_of_atView ((atView_moves_iff h).2 hflag m hm) hd i hi
  serves hlive hs := serves_of_flag (hset hlive hs) hlive hs

/-- A pool in use that has acted alone and pulled from no empty queue serves, alone. -/
theorem serves_of_pullOk {b : ι} {tr : List (PoolsMove threadsNum J ω)}
    {t : Pools threadsNum J ω} (h : (poolsSystem threadsNum J ω).Run tr t)
    (hflag : ∀ m ∈ tr, FlagOk b m.1 m.2.1) (hok : ∀ m ∈ moves b tr, m.1.PullOk m.2.1)
    (hlive : (t.2 b).pc = .live) : (t.2 b).pool.Serves := by
  obtain ⟨hw, hc⟩ := before_destroy (R := Pool.PullOk) (P := fun p => p.Woken ∧ p.Counted) h hflag
    (fun m hm => hok m hm) ⟨Pool.woken_made, Pool.counted_made⟩
    (fun _ _ _ hs hR hst => ⟨hs.1.step hR hst, hs.2.step hst⟩) (by rw [hlive]; rfl)
  exact hw.serves hc (one_le_threadsOf _)

/-- A pool is independent of the others in a run if and only if every test of the flag by its
workers finds what its own calls have written last, and the flag is set if the pool is in use
and would serve. So it is if no other pool is destroyed while it is made or in use and none is
made while it is destroyed. Then it serves, unless it has pulled from an empty queue. -/
theorem pools_independent_iff [Inhabited J] (b : ι) {tr : List (PoolsMove threadsNum J ω)}
    {t : Pools threadsNum J ω} (h : (poolsSystem threadsNum J ω).Run tr t) :
    (Independent b tr t ↔ (∀ m ∈ tr, FlagOk b m.1 m.2.1) ∧
      ((t.2 b).pc = .live → (t.2 b).pool.Serves → t.1 = true)) ∧
    ((∀ m ∈ tr, Undisturbed b m.1 m.2.1) → Independent b tr t ∧
      ((∀ m ∈ moves b tr, m.1.PullOk m.2.1) → (t.2 b).pc = .live → Serves b t)) := by
  refine ⟨⟨fun hind => ⟨(actsAlone_iff h).1 hind.alone, fun hlive hs => ?_⟩, fun hc =>
    independent_of_flag h hc.1 hc.2⟩, fun hund => ?_⟩
  · by_contra hclear
    exact not_serves_of_clear h hlive (Bool.eq_false_iff.2 hclear) (hind.serves hlive hs)
  · obtain ⟨hown, hflag⟩ := ownFlag_of_undisturbed h hund
    have hset : (t.2 b).pc = .live → t.1 = true := by
      intro hlive
      rcases hown with hpc | hpc | hown
      · rw [hlive] at hpc; cases hpc
      · rw [hlive] at hpc; cases hpc
      · rw [hown, hlive]; rfl
    have hind := independent_of_flag h hflag fun hlive _ => hset hlive
    exact ⟨hind, fun hok hlive => hind.serves hlive (serves_of_pullOk h hflag hok hlive)⟩

/-- Two pools of one worker each. -/
def twoPools (_ : Bool) : ℤ := 1

/-- The only worker of one of the two pools. -/
def theWorker (b : Bool) : Fin (threadsOf (twoPools b)) :=
  ⟨0, one_le_threadsOf _⟩

/-- `thpool_init` on one of the two pools : it makes its worker, the worker counts itself, and
the call returns. -/
def initLabels (b : Bool) : List (PoolsLabel twoPools ℕ Unit) :=
  [⟨b, .call⟩, ⟨b, .call⟩, ⟨b, .thread (theWorker b)⟩, ⟨b, .call⟩]

/-- A pool is made and given a job, and another pool is made. -/
theorem pools_independent_iff_two : ∃ tr t, (poolsSystem twoPools ℕ Unit).Run tr t ∧
    (t.2 false).pc = .live ∧ (t.2 true).pool.pushed = [0] ∧ Independent true tr t ∧
    Serves true t := by
  let s₀ : Pools twoPools ℕ Unit := (false, fun b => (lifeComp _ ℕ Unit).init)
  -- the steps that neither disturb the first pool nor pull from it
  let fine (s : Pools twoPools ℕ Unit) : PoolsLabel twoPools ℕ Unit → Bool
    | ⟨false, .call⟩ => (s.2 true).pc = .live ∧ (s.2 false).pc ≠ .live
    | ⟨true, .thread i⟩ => (s.2 true).pool.thread i ≠ .pull
    | _ => true
  let step (s : Pools twoPools ℕ Unit) (a) : Option (Pools twoPools ℕ Unit) :=
    if fine s a then sharedStep (fun b => lifeComp (threadsOf (twoPools b)) ℕ Unit) s a else none
  let labels : List (PoolsLabel twoPools ℕ Unit) :=
    initLabels true ++ [⟨true, .addWork 7⟩] ++ initLabels false
  have hrun : (labels.foldlM step s₀).map
      (fun t => ((t.2 false).pc, (t.2 true).pc, (t.2 true).pool.pushed)) =
      some (.live, .live, [0]) := by
    decide +kernel
  obtain ⟨t, hst, ht⟩ := Option.map_eq_some_iff.1 hrun
  obtain ⟨hother, ht⟩ := Prod.mk.inj ht
  obtain ⟨hlive, hpushed⟩ := Prod.mk.inj ht
  obtain ⟨tr, hp, -⟩ := LTS.Path.of_foldlM
    (S := ⟨fun _ => True, fun s a t => step s a = some t⟩) (fun _ _ _ h => h) hst
  have hr : (poolsSystem twoPools ℕ Unit).Run tr t :=
    ⟨s₀, rfl, hp.mono fun s a u h => (Option.ite_none_right_eq_some.1 h).2⟩
  have hfine : ∀ m ∈ tr, fine m.1 m.2.1 = true := fun m hm =>
    (Option.ite_none_right_eq_some.1 (hp.step_of_mem hm)).1
  have hund : ∀ m ∈ tr, Undisturbed true m.1 m.2.1 := by
    rintro ⟨s, a, u⟩ hm i hi rfl
    obtain rfl : i = false := Bool.eq_false_iff.2 hi
    obtain ⟨hb, hother⟩ : (s.2 true).pc = .live ∧ (s.2 false).pc ≠ .live :=
      of_decide_eq_true (hfine _ hm)
    exact ⟨fun _ => hother, by simp [hb]⟩
  have hok : ∀ m ∈ moves true tr, m.1.PullOk m.2.1 := by
    intro m hm
    obtain ⟨s, a, u, hm', rfl⟩ := mem_moves.1 hm
    intro a' ha'
    cases a with
    | call | wait => cases ha'
    | addWork job => cases ha'; trivial
    | thread i =>
      cases ha'
      have hne : (s.2 true).pool.thread i ≠ .pull := of_decide_eq_true (hfine _ hm')
      exact fun hi => (hne hi).elim
  obtain ⟨hind, hserves⟩ := (pools_independent_iff true hr).2 hund
  exact ⟨tr, t, hr, hother, hpushed, hind, hserves hok hlive⟩

/-- Two pools are made and the first is destroyed : the worker of the second leaves, while its
pool is in use. Or a pool is being destroyed with its worker at the semaphore while the other
is made : the worker passes its test of the flag and pulls from the empty queue. -/
theorem pools_not_independent :
    (∃ tr t, (poolsSystem twoPools ℕ Unit).Run tr t ∧ (t.2 true).pc = .live ∧
      (t.2 true).pool.thread (theWorker true) = .exited ∧ ¬Independent true tr t) ∧
    ∃ tr t, (poolsSystem twoPools ℕ Unit).Run tr t ∧ (t.2 true).pc = .poll ∧
      (t.2 true).pool.pushed = [] ∧ (t.2 true).pool.pulled = [.jobHead] ∧
      ¬Independent true tr t := by
  let step := sharedStep fun b => lifeComp (threadsOf (twoPools b)) ℕ Unit
  let s₀ : Pools twoPools ℕ Unit := (false, fun b => (lifeComp _ ℕ Unit).init)
  let worker : PoolsLabel twoPools ℕ Unit := ⟨true, .thread (theWorker true)⟩
  constructor
  · have hrun : ((initLabels true ++ initLabels false ++ [⟨false, .call⟩, worker, worker]).foldlM
        step s₀).map (fun t => ((t.2 true).pc, (t.2 true).pool.thread (theWorker true))) =
        some (.live, .exited) := by
      decide +kernel
    obtain ⟨t, hst, ht⟩ := Option.map_eq_some_iff.1 hrun
    obtain ⟨hpc, hthread⟩ := Prod.mk.inj ht
    obtain ⟨tr, hp, -⟩ :=
      LTS.Path.of_foldlM (S := poolsSystem twoPools ℕ Unit) (fun _ _ _ h => h) hst
    refine ⟨tr, t, ⟨_, rfl, hp⟩, hpc, hthread, fun hind => ?_⟩
    have hd := hind.stays (theWorker true) (by rw [hthread]; rfl)
    rw [hpc] at hd
    cases hd
  · have hrun : ((initLabels true ++ [worker, ⟨true, .call⟩, ⟨false, .call⟩, ⟨true, .call⟩,
        ⟨true, .call⟩, worker]).foldlM step s₀).bind (fun s => (step s worker).bind fun t =>
        ([worker, worker].foldlM step t).map fun u =>
          (((s.2 true).pc, (s.2 true).pool.thread (theWorker true)),
            (t.2 true).pool.thread (theWorker true),
            (u.2 true).pc, (u.2 true).pool.pushed, (u.2 true).pool.pulled)) =
        some ((.poll, .check), .count, .poll, [], [.jobHead]) := by
      decide +kernel
    obtain ⟨s, hs, hst⟩ := Option.bind_eq_some_iff.1 hrun
    obtain ⟨t, ht, hst⟩ := Option.bind_eq_some_iff.1 hst
    obtain ⟨u, hu, hst⟩ := Option.map_eq_some_iff.1 hst
    obtain ⟨hs', hst⟩ := Prod.mk.inj hst
    obtain ⟨hpc, hcheck⟩ := Prod.mk.inj hs'
    obtain ⟨hcount, hst⟩ := Prod.mk.inj hst
    obtain ⟨hpc', hst⟩ := Prod.mk.inj hst
    obtain ⟨hpushed, hpulled⟩ := Prod.mk.inj hst
    obtain ⟨tr, hp, -⟩ :=
      LTS.Path.of_foldlM (S := poolsSystem twoPools ℕ Unit) (fun _ _ _ h => h) hs
    obtain ⟨tr', hp', -⟩ :=
      LTS.Path.of_foldlM (S := poolsSystem twoPools ℕ Unit) (fun _ _ _ h => h) hu
    refine ⟨_, u, ⟨_, rfl, (hp.snoc (a := worker) ht).trans hp'⟩, hpc', hpushed, hpulled,
      fun hind => ?_⟩
    -- the worker's second test of the flag is what the pool alone does not do
    have hmem : (s.2 true, LifeLabel.thread (theWorker true), t.2 true) ∈
        moves true (tr ++ [(s, worker, t)] ++ tr') :=
      mem_moves.2 ⟨s, _, t, by simp [worker], rfl⟩
    have hpulls := hind.pulls _ hmem (by rw [hpc]; rfl) (theWorker true) (by rw [hcheck]; rfl)
    rw [hcount] at hpulls
    cases hpulls

end Nowra
