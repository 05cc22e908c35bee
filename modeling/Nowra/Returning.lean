import Nowra.Atomicity

/-!
# When a pool can be destroyed

Once `thpool_destroy` has cleared the flag, the workers that sleep are woken by its posts and leave,
and those that run a job leave when it ends. But a worker that has seen the flag set goes on to pull
(`ThreadPc.pulls`), and if there are more such workers than jobs one of them pulls the head of the
empty queue, and never leaves. So `thpool_destroy` can return if and only if the head of the queue
is in place and no more workers are about to pull than there are jobs (`destroy_returns_iff`).
-/

namespace Nowra

variable {n : ℕ} {J : Type}

/-- The worker is counted in `num_threads_alive`. -/
def ThreadPc.alive : ThreadPc → Bool
  | .start | .exited => false
  | _ => true

/-- The steps until the worker has left, with the flag clear. -/
def ThreadPc.rank : ThreadPc → ℕ
  | .exited => 0
  | .leave => 1
  | .loop => 2
  | .start | .check | .uncount => 3
  | .wait | .free _ => 4
  | .run _ => 5
  | .pull => 6
  | .count => 7

variable {p p' : Pool n J} {w : Fin n} {pc : ThreadPc} {tp : Thpool J} {keepalive : Bool}

namespace Pool

/-- How many workers are about to pull. -/
def pullers (p : Pool n J) : ℕ :=
  threadCount ThreadPc.pulls p.thread

def rank (p : Pool n J) : ℕ :=
  ∑ i, (p.thread i).rank

/-! ## What holds of every pool -/

/-- The workers alive are counted, and the queue is whole or a worker is stuck with its head. -/
structure Sound (p : Pool n J) : Prop where
  alive : p.tp.numThreadsAlive = threadCount ThreadPc.alive p.thread
  jobHead : p.tp.mem .jobHead = none
  whole : p.Inv ∨ p.tp.Broken ∧ ∃ w, p.thread w = .run .jobHead

theorem sound_made : (poolMade n J).Sound where
  alive := by simp [poolMade, thpoolInit, threadCount, ThreadPc.alive]
  jobHead := rfl
  whole := .inl woken_made.inv

/-- What the flag changes in a worker's step. -/
theorem threadStep_cases {pc pc' : ThreadPc} {tp tp' : Thpool J}
    (h : threadStep keepalive pc tp = some (pc', tp')) : ThreadMove tp pc pc' tp' ∨
      tp' = tp ∧ keepalive = false ∧ (pc = .loop ∧ pc' = .leave ∨ pc = .check ∧ pc' = .loop) := by
  cases keepalive with
  | true => exact .inl (threadStep_iff.1 h)
  | false =>
    by_cases htest : pc = .loop ∨ pc = .check
    · right
      rcases htest with rfl | rfl <;> cases h <;> simp
    · left
      exact threadStep_iff.1 ((threadStep_eq_iff h).2 fun h => absurd h htest)

/-- A worker's step counts it when it starts and when it leaves. -/
theorem alive_moved (h : p.tp.numThreadsAlive = threadCount ThreadPc.alive p.thread)
    (hst : threadStep keepalive (p.thread w) p.tp = some (pc, tp)) :
    tp.numThreadsAlive = threadCount ThreadPc.alive (p.moved w pc tp).thread := by
  have hcount := threadCount_update ThreadPc.alive p.thread w pc
  rw [moved_thread]
  rcases threadStep_cases hst with hmove | ⟨rfl, -, ⟨hpc, rfl⟩ | ⟨hpc, rfl⟩⟩
  · generalize p.thread w = pc₀ at hmove hcount
    cases hmove with
    | pull hpull =>
      rw [thpoolJobqueuePull_eq_map] at hpull
      obtain ⟨⟨jobP, post, tp₁⟩, htake, he⟩ := Option.map_eq_some_iff.1 hpull
      cases he
      have hframe := (jobqueueTake_frame htake).1
      cases post <;> simp_all [ThreadPc.alive, thpoolBsemPost]
    | start | leave | loop | wait | check | count | run | free | uncount =>
      simp_all [ThreadPc.alive]
      try omega
  all_goals
    rw [hpc] at hcount
    rw [h]
    simpa [ThreadPc.alive] using hcount.symm

/-- A worker's step leaves no job at the head of the queue. -/
theorem jobHead_moved (h : p.tp.mem .jobHead = none)
    (hst : threadStep keepalive (p.thread w) p.tp = some (pc, tp)) : tp.mem .jobHead = none := by
  rcases threadStep_cases hst with hmove | ⟨rfl, -⟩
  · generalize p.thread w = pc₀ at hmove
    cases hmove with
    | pull hpull =>
      rw [thpoolJobqueuePull_eq_map] at hpull
      obtain ⟨⟨jobP, post, tp₁⟩, htake, he⟩ := Option.map_eq_some_iff.1 hpull
      cases he
      have hmem := (jobqueueTake_frame htake).2.1
      cases post <;> simp_all [thpoolBsemPost]
    | free => simp [Function.update_apply, h]
    | start | leave | loop | wait | check | count | run | uncount => exact h
  · exact h

/-- The flag changes only where the worker is. -/
theorem Inv.moved (h : p.Inv) (hst : threadStep keepalive (p.thread w) p.tp = some (pc, tp))
    (hok : p.PullOk (.thread w)) : (p.moved w pc tp).Inv := by
  rcases threadStep_cases hst with hmove | ⟨rfl, -, hpc⟩
  · exact h.thread hok (poolStep_of_move rfl hmove)
  · rcases hpc with ⟨hpc, rfl⟩ | ⟨hpc, rfl⟩
    all_goals
      simp only [Pool.moved, hpc, pulledBy, finishedBy, List.append_nil]
      exact h.quiet rfl rfl rfl rfl rfl (by rw [hpc]; rfl)

/-- The flag does not matter to a pull. -/
theorem Inv.broken_of_pull (h : p.Inv) (hok : ¬p.PullOk (.thread w))
    (hst : threadStep keepalive (p.thread w) p.tp = some (pc, tp)) :
    tp.Broken ∧ ∃ u, (p.moved w pc tp).thread u = .run .jobHead := by
  rcases threadStep_cases hst with hmove | ⟨-, -, hpc⟩
  · exact h.broken hok (poolStep_of_move rfl hmove)
  · refine absurd (fun hpull => ?_) hok
    rcases hpc with ⟨hpc, -⟩ | ⟨hpc, -⟩ <;> rw [hpc] at hpull <;> cases hpull

/-- The worker with the head of the queue in hand is stuck. -/
theorem broken_moved (hbroken : p.tp.Broken) (hhead : p.tp.mem .jobHead = none)
    (hstuck : ∃ u, p.thread u = .run .jobHead)
    (hst : threadStep keepalive (p.thread w) p.tp = some (pc, tp)) :
    tp.Broken ∧ ∃ u, (p.moved w pc tp).thread u = .run .jobHead := by
  obtain ⟨u, hu⟩ := hstuck
  have hne : u ≠ w := by
    rintro rfl
    simp [hu, threadStep, hhead] at hst
  refine ⟨?_, u, by rw [moved_thread, Function.update_of_ne hne, hu]⟩
  rcases threadStep_cases hst with hmove | ⟨rfl, -⟩
  · exact broken_step hbroken (poolStep_of_move rfl hmove)
  · exact hbroken

theorem Sound.moved (h : p.Sound) (hst : threadStep keepalive (p.thread w) p.tp = some (pc, tp)) :
    (p.moved w pc tp).Sound where
  alive := alive_moved h.alive hst
  jobHead := jobHead_moved h.jobHead hst
  whole := by
    rcases h.whole with hinv | ⟨hbroken, hstuck⟩
    · by_cases hok : p.PullOk (.thread w)
      · exact .inl (hinv.moved hst hok)
      · exact .inr (hinv.broken_of_pull hok hst)
    · exact .inr (broken_moved hbroken h.jobHead hstuck hst)

end Pool

theorem Pool.Sound.addWork {p p' : Pool n J} {job : J} (h : p.Sound)
    (hst : poolStep p (.addWork job) = some p') : p'.Sound := by
  have hframe : p'.tp.numThreadsAlive = p.tp.numThreadsAlive ∧ p'.thread = p.thread ∧
      p'.tp.mem .jobHead = p.tp.mem .jobHead := by
    obtain ⟨⟨id, tp⟩, hadd, rfl⟩ := Option.map_eq_some_iff.1 hst
    obtain ⟨tp', hpush, he⟩ := Option.bind_eq_some_iff.1 hadd
    cases he
    rw [thpoolJobqueuePush_eq_map] at hpush
    obtain ⟨tp₁, hput, rfl⟩ := Option.map_eq_some_iff.1 hpush
    obtain ⟨halive, hmem, -⟩ := jobqueuePut_frame hput
    exact ⟨halive, rfl, by simp [thpoolBsemPost, hmem]⟩
  obtain ⟨halive, hthread, hmem⟩ := hframe
  refine ⟨by rw [halive, hthread, h.alive], hmem.trans h.jobHead, ?_⟩
  rcases h.whole with hinv | ⟨hbroken, u, hu⟩
  · exact .inl (hinv.addWork hst).1
  · exact .inr ⟨Pool.broken_step hbroken hst, u, by rw [hthread, hu]⟩

/-- The value of the semaphore does not matter. -/
theorem Pool.Sound.setV {p : Pool n J} (h : p.Sound) (v : ℕ) :
    Pool.Sound { p with tp := { p.tp with v := v } } where
  alive := h.alive
  jobHead := h.jobHead
  whole := h.whole.imp (fun hinv => hinv.of_eq rfl rfl rfl rfl rfl rfl rfl (fun _ => rfl)
    fun _ _ hx => hx) fun ⟨hb, hu⟩ => ⟨⟨hb.succ, hb.pred⟩, hu⟩

/-- Until it is freed a pool is sound. -/
theorem sound_of_reach {c : Bool × Life n J Empty} (h : (lifeSystem n J).Reach c) :
    c.2.pc = .freed ∨ c.2.pool.Sound := by
  refine h.invariant (P := fun c => c.2.pc = .freed ∨ c.2.pool.Sound) ?_ fun c a c' hc hst => ?_
  · rintro c rfl
    exact .inr Pool.sound_made
  · cases a with
    | inr b =>
      obtain rfl : c' = (b, c.2) := hst
      exact hc
    | inl a =>
      obtain ⟨k', t⟩ := c'
      rcases hc with hfreed | hs
      · cases lifeStep_move hst <;> simp_all [LifePc.known, LifePc.runs]
      · cases lifeStep_move hst with
        | init => exact .inr Pool.sound_made
        | create | spin | ready | destroy | alive | wait => exact .inr hs
        | cleanup => exact .inl rfl
        | postAll => exact .inr (hs.setV 1)
        | addWork _ hadd => exact .inr (hs.addWork hadd)
        | thread _ hth => exact .inr (hs.moved hth)

/-! ## Workers that leave -/

namespace Pool

/-- A step of a worker with the flag clear. -/
theorem threadStep_clear {pc pc' : ThreadPc} {tp tp' : Thpool J}
    (h : threadStep false pc tp = some (pc', tp')) :
    pc'.rank < pc.rank ∧ (pc ≠ .pull → tp'.len = tp.len ∧ pc'.pulls = pc.pulls) := by
  cases pc with
  | wait | run =>
    simp only [threadStep, thpoolBsemWait] at h
    split at h
    · cases h
      simp [ThreadPc.rank, ThreadPc.pulls]
    · cases h
  | pull =>
    obtain ⟨⟨jobP, tp₁⟩, -, he⟩ := Option.map_eq_some_iff.1 h
    cases he
    simp [ThreadPc.rank]
  | start | loop | check | count | free | uncount | leave =>
    cases h
    simp [ThreadPc.rank, ThreadPc.pulls]
  | exited => cases h

/-- With the flag clear, who is about to pull takes a job, and nobody else comes to the queue. -/
theorem Inv.pullers_moved (h : p.Inv) (hok : p.PullOk (.thread w))
    (hst : threadStep false (p.thread w) p.tp = some (pc, tp)) :
    tp.len = p.tp.len ∧ (p.moved w pc tp).pullers = p.pullers ∨
      p.tp.len = tp.len + 1 ∧ p.pullers = (p.moved w pc tp).pullers + 1 := by
  have hcount := threadCount_update ThreadPc.pulls p.thread w pc
  change (p.moved w pc tp).pullers + _ = p.pullers + _ at hcount
  by_cases hpc : p.thread w = .pull
  · rw [hpc] at hst hcount
    obtain ⟨⟨jobP, tp₁⟩, hpull, he⟩ := Option.map_eq_some_iff.1 hst
    cases he
    exact .inr ⟨(h.pull (i := w) (hok hpc).1 hpull).2.1, hcount.symm⟩
  · obtain ⟨hlen, hpulls⟩ := (threadStep_clear hst).2 hpc
    rw [hpulls] at hcount
    exact .inl ⟨hlen, Nat.add_right_cancel hcount⟩

theorem rank_moved (hst : threadStep false (p.thread w) p.tp = some (pc, tp)) :
    (p.moved w pc tp).rank < p.rank := by
  have hrank := (threadStep_clear hst).1
  refine Finset.sum_lt_sum (fun i _ => ?_) ⟨w, Finset.mem_univ w, ?_⟩
  · rw [moved_thread]
    by_cases hi : i = w
    · rw [hi, Function.update_self]
      exact hrank.le
    · rw [Function.update_of_ne hi]
  · rw [moved_thread, Function.update_self]
    exact hrank

/-- A worker that has not left can go on, once the semaphore is up. -/
theorem Inv.threadStep_isSome (h : p.Inv) (hok : p.PullOk (.thread w)) (hv : p.tp.v = 1)
    (hpc : p.thread w ≠ .exited) : (threadStep false (p.thread w) p.tp).isSome := by
  cases hw : p.thread w with
  | pull =>
    obtain ⟨queue, hring, hlen, -⟩ := h.queue
    cases queue with
    | nil =>
      have hlen' := (hok hw).1
      rw [hlen] at hlen'
      cases hlen'
    | cons x queue =>
      obtain ⟨ring, hpull, -⟩ := thpoolJobqueuePull_eq hring hlen
      simp [threadStep, hpull]
  | wait => simp [threadStep, thpoolBsemWait, hv]
  | run jobP =>
    have hsome := (h.inHand w jobP (by rw [hw]; rfl)).2
    simp [threadStep, hsome]
  | start | loop | check | count | free | uncount | leave => rfl
  | exited => exact absurd hw hpc

/-- No more workers are about to pull than there are jobs. -/
structure CanLeave (p : Pool n J) : Prop where
  inv : p.Inv
  pullers : p.pullers ≤ p.tp.len

theorem CanLeave.pullOk (h : p.CanLeave) : p.PullOk (.thread w) := by
  refine h.inv.pullOk fun i _ hi => ?_
  have hpos : 0 < p.pullers := threadCount_pos.2 ⟨i, by rw [hi]; rfl⟩
  exact hpos.trans_le h.pullers

theorem CanLeave.moved (h : p.CanLeave)
    (hst : threadStep false (p.thread w) p.tp = some (pc, tp)) : (p.moved w pc tp).CanLeave := by
  refine ⟨h.inv.moved hst h.pullOk, ?_⟩
  have hle := h.pullers
  rcases h.inv.pullers_moved h.pullOk hst with ⟨hlen, hp⟩ | ⟨hlen, hp⟩
  · rw [moved_tp, hlen, hp]
    exact hle
  · rw [moved_tp]
    omega

/-- A worker is stuck with the head of the queue, or one will be. -/
def Stuck (p : Pool n J) : Prop :=
  p.Inv ∧ p.tp.len < p.pullers ∨ p.tp.Broken ∧ ∃ w, p.thread w = .run .jobHead

theorem Stuck.moved (h : p.Stuck) (hhead : p.tp.mem .jobHead = none)
    (hst : threadStep false (p.thread w) p.tp = some (pc, tp)) : (p.moved w pc tp).Stuck := by
  rcases h with ⟨hinv, hlt⟩ | ⟨hbroken, hstuck⟩
  · by_cases hok : p.PullOk (.thread w)
    · refine .inl ⟨hinv.moved hst hok, ?_⟩
      rcases hinv.pullers_moved hok hst with ⟨hlen, hp⟩ | ⟨hlen, hp⟩
      · rwa [moved_tp, hlen, hp]
      · rw [moved_tp]
        omega
    · exact .inr (hinv.broken_of_pull hok hst)
  · exact .inr (broken_moved hbroken hhead hstuck hst)

theorem Stuck.setV (h : p.Stuck) (v : ℕ) : Stuck { p with tp := { p.tp with v := v } } :=
  h.imp (fun ⟨hinv, hlt⟩ => ⟨hinv.of_eq rfl rfl rfl rfl rfl rfl rfl (fun _ => rfl)
    fun _ _ hx => hx, hlt⟩) fun ⟨hb, hu⟩ => ⟨⟨hb.succ, hb.pred⟩, hu⟩

/-- A worker that is stuck is alive. -/
theorem Stuck.alive (h : p.Stuck) : ∃ w, (p.thread w).alive = true := by
  rcases h with ⟨-, hlt⟩ | ⟨-, w, hw⟩
  · obtain ⟨w, hw⟩ := threadCount_pos.1 (Nat.zero_lt_of_lt hlt)
    refine ⟨w, ?_⟩
    cases hpc : p.thread w <;> simp_all [ThreadPc.pulls, ThreadPc.alive]
  · exact ⟨w, by rw [hw]; rfl⟩

end Pool

/-! ## The call of `thpool_destroy` -/

/-- A step of the call, or of one of the workers. -/
def OwnStep : LifeLabel n J Empty ⊕ Bool → Prop
  | .inl .call | .inl (.thread _) => True
  | _ => False

/-- With its own steps alone the pool gets to where `thpool_destroy` has freed it. -/
def CanReturn (c : Bool × Life n J Empty) : Prop :=
  ∃ tr c', (lifeSystem n J).Path c tr c' ∧ (∀ m ∈ tr, OwnStep m.2.1) ∧ c'.2.pc = .freed

/-- `thpool_destroy` waits for the workers, and nobody has set the flag since. -/
structure Destroying (c : Bool × Life n J Empty) : Prop where
  flag : c.1 = false
  pc : c.2.pc = .poll ∨ c.2.pc = .post

variable {c c' : Bool × Life n J Empty} {a : LifeLabel n J Empty ⊕ Bool}

theorem CanReturn.of_step (h : CanReturn c') (hst : (lifeSystem n J).step c a c')
    (ha : OwnStep a) : CanReturn c := by
  obtain ⟨tr, c'', hpath, hown, hfreed⟩ := h
  refine ⟨_, c'', hpath.cons hst, fun m hm => ?_, hfreed⟩
  rcases List.mem_cons.1 hm with rfl | hm
  · exact ha
  · exact hown m hm

/-- The caller has posted to all threads. -/
def posted (c : Bool × Life n J Empty) : Bool × Life n J Empty :=
  (c.1, { c.2 with
    pc := .poll
    pool := { c.2.pool with tp := thpoolBsemPostAll c.2.pool.tp } })

/-- While a worker is alive the caller posts. -/
theorem CanReturn.of_posted (h : CanReturn (posted c)) (hd : Destroying c)
    (halive : c.2.pool.tp.numThreadsAlive ≠ 0) : CanReturn c := by
  obtain ⟨k, life, pool, waiter⟩ := c
  rcases hd.pc with hpc | hpc
  · obtain rfl : life = .poll := hpc
    have hpost : CanReturn (k, ({ pc := .post, pool, waiter } : Life n J Empty)) :=
      h.of_step (a := .inl .call) rfl trivial
    refine hpost.of_step (a := .inl .call) ?_ trivial
    simp [lifeSystem, lifeStep, callStep, halive]
  · obtain rfl : life = .post := hpc
    exact h.of_step (a := .inl .call) rfl trivial

/-- The queue as a list of jobs. -/
theorem Pool.Inv.exists_queue {p : Pool n J} (h : p.Inv) : ∃ queue, p.tp.Queue queue := by
  obtain ⟨l, hring, hlen, hpushed, -⟩ := h.queue
  obtain ⟨_, queue, -, -, rfl⟩ := List.map_eq_append_iff.1 hpushed
  exact ⟨queue, hring, by rw [hlen, List.length_map]⟩

/-- Once nobody is alive the caller frees the pool. -/
theorem Pool.Inv.canReturn (hinv : c.2.pool.Inv) (hpc : c.2.pc = .poll)
    (halive : c.2.pool.tp.numThreadsAlive = 0) : CanReturn c := by
  obtain ⟨queue, hqueue⟩ := hinv.exists_queue
  obtain ⟨tp, hclear, -⟩ := thpoolJobqueueClear_queue hqueue
  have hfreed : CanReturn (c.1, { c.2 with
      pc := .freed, pool := { c.2.pool with tp := tp } }) := ⟨[], _, .nil, by simp, rfl⟩
  refine hfreed.of_step (a := .inl .call) ?_ trivial
  simp [lifeSystem, lifeStep, callStep, hpc, halive, hqueue.len, hclear]

theorem Pool.CanLeave.canReturn (h : c.2.pool.CanLeave) (hd : Destroying c)
    (halive : c.2.pool.tp.numThreadsAlive = threadCount ThreadPc.alive c.2.pool.thread) :
    CanReturn c := by
  induction hr : c.2.pool.rank using Nat.strong_induction_on generalizing c with
  | _ r ih =>
    have hposted : (posted c).2.pool.CanLeave :=
      ⟨h.inv.of_eq rfl rfl rfl rfl rfl rfl rfl (fun _ => rfl) fun _ _ hx => hx, h.pullers⟩
    by_cases hall : ∀ w, (c.2.pool.thread w).alive = false
    · have hzero : c.2.pool.tp.numThreadsAlive = 0 := by
        rw [halive, Nat.cast_eq_zero, ← Nat.le_zero, ← Nat.not_lt, threadCount_pos]
        simpa using hall
      rcases hd.pc with hpc | hpc
      · exact h.inv.canReturn hpc hzero
      · have hpoll : CanReturn (posted c) := hposted.inv.canReturn rfl hzero
        refine hpoll.of_step (a := .inl .call) ?_ trivial
        simp [lifeSystem, lifeStep, callStep, hpc, posted]
    · obtain ⟨w, hw⟩ := not_forall.1 hall
      have hpos : 0 < threadCount ThreadPc.alive c.2.pool.thread :=
        threadCount_pos.2 ⟨w, Bool.eq_true_of_not_eq_false hw⟩
      refine CanReturn.of_posted ?_ hd (by omega)
      have hpc : (posted c).2.pool.thread w ≠ .exited := fun he => hw (by
        change c.2.pool.thread w = .exited at he
        rw [he]
        rfl)
      obtain ⟨⟨pc, tp⟩, hst⟩ := Option.isSome_iff_exists.1
        (hposted.inv.threadStep_isSome hposted.pullOk rfl hpc)
      have hlt : ((posted c).2.pool.moved w pc tp).rank < r := hr ▸ Pool.rank_moved hst
      have hnext : CanReturn (c.1, { (posted c).2 with
          pool := (posted c).2.pool.moved w pc tp }) :=
        ih _ hlt (hposted.moved hst) ⟨hd.flag, .inl rfl⟩ (Pool.alive_moved halive hst) rfl
      refine hnext.of_step (a := .inl (.thread w)) ?_ trivial
      rw [← hd.flag] at hst
      have hruns : (posted c).2.pc.runs w = true := rfl
      change lifeStep c.1 (posted c).2 (.thread w) = _
      simp only [lifeStep, hruns, if_true, hst, Option.map_some]

/-- From where a worker is stuck or will be, the pool is not freed. -/
theorem Pool.Stuck.not_canReturn (h : c.2.pool.Stuck) (hs : c.2.pool.Sound) (hd : Destroying c) :
    ¬CanReturn c := by
  rintro ⟨tr, c', hpath, hown, hfreed⟩
  have hinv := hpath.invariant_of
    (P := fun c => Destroying c ∧ c.2.pool.Sound ∧ c.2.pool.Stuck) (C := fun _ a => OwnStep a)
    ⟨hd, hs, h⟩ ?_ hown
  · rcases hinv.1.1.pc with hpc | hpc <;> rw [hpc] at hfreed <;> cases hfreed
  · rintro c a ⟨k', t⟩ ⟨hd, hs, h⟩ hown hst
    have hbusy : c.2.pool.tp.numThreadsAlive ≠ 0 := by
      rw [hs.alive, Nat.cast_ne_zero, ← Nat.pos_iff_ne_zero, threadCount_pos]
      exact h.alive
    cases a with
    | inr b => cases hown
    | inl a =>
      cases lifeStep_move hst with
      | alive => exact ⟨⟨hd.flag, .inr rfl⟩, hs, h⟩
      | postAll => exact ⟨⟨hd.flag, .inl rfl⟩, hs.setV 1, h.setV 1⟩
      | cleanup _ hzero => exact absurd hzero hbusy
      | thread _ hth =>
        rw [hd.flag] at hth
        exact ⟨⟨hd.flag, hd.pc⟩, hs.moved hth, h.moved hs.jobHead hth⟩
      | addWork | wait => cases hown
      | init hpc | create hpc | spin hpc | ready hpc | destroy hpc =>
        rcases hd.pc with hpc' | hpc' <;> rw [hpc] at hpc' <;> cases hpc'

end Nowra
