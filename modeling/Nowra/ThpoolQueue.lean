import Mathlib.Data.List.Infix
import Nowra.Thpool

/-!
# The job queue and its wake-ups

The queue is sound as long as no worker pulls from an empty one (`Pool.Inv.step`) : the ring
lists exactly the jobs pushed and not yet pulled, `len` counts them, and no two workers have
the same job in hand.

Whether a worker pulls from an empty queue depends on the wake-ups. The semaphore is binary
and is posted by `push` and, when jobs remain, by `pull`, so a wake-up stands for no job in
particular. What one step does to the length, the semaphore and the number of workers that
hold a wake-up is `Pool.Inv.tokens`. Three invariants follow from it.

* `surplusFree_of_conform` : if a worker takes a wake-up only while fewer workers hold one
  than there are jobs, no more workers hold one than there are jobs.
* `oneWorker` : a pool with one worker always conforms.
* `noLostWakeup` : a queued job has a wake-up, posted or held.
-/

namespace Nowra

variable {n : ℕ} {J : Type}

namespace Pool

/-- A worker pulls only from a queue with a job in it. -/
def PullOk (s : Pool n J) : PoolLabel n J → Prop
  | .addWork _ => True
  | .thread i => s.thread i = .pull →
      1 ≤ s.tp.len ∧ (s.tp.ring .jobHead).succ ≠ some .jobHead

instance (s : Pool n J) : (a : PoolLabel n J) → Decidable (s.PullOk a)
  | .addWork _ => inferInstanceAs (Decidable True)
  | .thread i => inferInstanceAs (Decidable (s.thread i = .pull →
      1 ≤ s.tp.len ∧ (s.tp.ring .jobHead).succ ≠ some .jobHead))

/-- A worker takes a wake-up only while fewer workers hold one than there are jobs. -/
def WakeOk (s : Pool n J) : PoolLabel n J → Prop
  | .addWork _ => True
  | .thread i => s.thread i = .wait → s.holders < s.tp.len

/-- The queue is the jobs pushed and not yet pulled, in order, and a worker has in hand or
has finished only jobs it pulled, each once. -/
structure Fifo (s : Pool n J) : Prop where
  queue : ∃ l, IsRing s.tp.ring .jobHead l ∧ s.tp.len = l.length
  inOrder : s.pulled <+: s.pushed.map .job
  once : s.pulled.Nodup ∧ s.finished.Nodup
  finished : ∀ x ∈ s.finished, x ∈ s.pulled
  inHand : ∀ i x, (s.thread i).inHand = some x → x ∈ s.pulled ∧ (s.tp.mem x).isSome
  apart : ∀ i j x, (s.thread i).inHand = some x → (s.thread j).inHand = some x → i = j

/-- The invariant behind `Fifo`. -/
structure Inv (s : Pool n J) : Prop where
  queue : ∃ l, IsRing s.tp.ring .jobHead l ∧ s.tp.len = l.length ∧
    s.pushed.map .job = s.pulled ++ l ∧ ∀ x ∈ l, (s.tp.mem x).isSome
  fresh : s.pushed = List.range s.tp.nextJob
  finished : ∀ x ∈ s.finished, x ∈ s.pulled
  once : s.finished.Nodup
  running : ∀ i x, s.thread i = .run x → x ∉ s.finished
  inHand : ∀ i x, (s.thread i).inHand = some x → x ∈ s.pulled ∧ (s.tp.mem x).isSome
  apart : ∀ i j x, (s.thread i).inHand = some x → (s.thread j).inHand = some x → i = j

theorem Inv.nodup {s : Pool n J} (h : s.Inv) : (s.pushed.map Node.job).Nodup := by
  rw [h.fresh]
  exact List.nodup_range.map fun _ _ h => Node.job.inj h

theorem Inv.fifo {s : Pool n J} (h : s.Inv) : s.Fifo := by
  obtain ⟨l, hr, hlen, hpush, -⟩ := h.queue
  have hnd := h.nodup
  rw [hpush] at hnd
  exact ⟨⟨l, hr, hlen⟩, ⟨l, hpush.symm⟩, ⟨(List.nodup_append.1 hnd).1, h.once⟩, h.finished,
    h.inHand, h.apart⟩

theorem inv_init : (poolInit n J).Inv where
  queue := ⟨[], isRing_ringInit _ _, rfl, rfl, by simp⟩
  fresh := rfl
  finished := by simp [poolInit]
  once := List.nodup_nil
  running := by simp [poolInit]
  inHand := by simp [poolInit, ThreadPc.inHand]
  apart := by simp [poolInit, ThreadPc.inHand]

/-- The invariant reads the two ends of the history, the ring, the allocated jobs, and what
the workers have in hand. -/
theorem Inv.of_eq {s t : Pool n J} (h : s.Inv) (hring : t.tp.ring = s.tp.ring)
    (hlen : t.tp.len = s.tp.len) (hmem : t.tp.mem = s.tp.mem)
    (hnext : t.tp.nextJob = s.tp.nextJob) (hpushed : t.pushed = s.pushed)
    (hpulled : t.pulled = s.pulled) (hfin : t.finished = s.finished)
    (hhand : ∀ i, (t.thread i).inHand = (s.thread i).inHand)
    (hrun : ∀ i x, t.thread i = .run x → s.thread i = .run x) : t.Inv where
  queue := by simpa [hring, hlen, hmem, hpushed, hpulled] using h.queue
  fresh := by rw [hpushed, hnext, h.fresh]
  finished := by simpa [hfin, hpulled] using h.finished
  once := hfin ▸ h.once
  running i x hx := hfin ▸ h.running i x (hrun i x hx)
  inHand := by simpa [hhand, hpulled, hmem] using h.inHand
  apart := by simpa [hhand] using h.apart

/-- Adding a job keeps the invariant. -/
theorem Inv.addWork {s t : Pool n J} {job : J} (h : s.Inv)
    (hst : poolStep s (.addWork job) = some t) : t.Inv ∧ t.tp.len = s.tp.len + 1 ∧
      t.tp.v = 1 ∧ t.thread = s.thread := by
  obtain ⟨l, hr, hlen, hpush, hmem⟩ := h.queue
  have hold : ∀ x ∈ s.pushed.map Node.job, x ≠ .job s.tp.nextJob := by
    rw [h.fresh]
    simp only [List.mem_map, List.mem_range]
    rintro x ⟨id, hid, rfl⟩ he
    exact hid.ne (Node.job.inj he)
  have hpulled : ∀ x ∈ s.pulled, x ≠ .job s.tp.nextJob := fun x hx =>
    hold x (hpush ▸ List.mem_append_left _ hx)
  have hl : ∀ x ∈ l, x ≠ .job s.tp.nextJob := fun x hx =>
    hold x (hpush ▸ List.mem_append_right _ hx)
  obtain ⟨ring, heq, hr'⟩ := thpoolAddWork_eq job hr fun hx => hl _ hx rfl
  simp only [poolStep, heq, Option.map_some, Option.some.injEq] at hst
  subst hst
  refine ⟨⟨⟨l ++ [.job s.tp.nextJob], hr', by simp [hlen], ?_, ?_⟩, ?_, h.finished, h.once,
    h.running, ?_, h.apart⟩, rfl, rfl, rfl⟩
  · simp [hpush]
  · intro x hx
    rcases List.mem_append.1 hx with hx | hx
    · simpa [Function.update_of_ne (hl x hx)] using hmem x hx
    · simp [List.mem_singleton.1 hx]
  · simp [h.fresh, List.range_succ]
  · intro i x hx
    obtain ⟨hp, hm⟩ := h.inHand i x hx
    exact ⟨hp, by simpa [Function.update_of_ne (hpulled x hp)] using hm⟩

/-- A move of worker `i` that leaves the queue, the jobs and the worker's hand alone. -/
theorem Inv.quiet {s : Pool n J} {i : Fin n} {pc : ThreadPc} {tp : Thpool J} (h : s.Inv)
    (hring : tp.ring = s.tp.ring) (hlen : tp.len = s.tp.len) (hmem : tp.mem = s.tp.mem)
    (hnext : tp.nextJob = s.tp.nextJob) (hpc : pc.inHand = none)
    (hi : (s.thread i).inHand = none) :
    Inv { s with tp := tp, thread := Function.update s.thread i pc } := by
  refine h.of_eq hring hlen hmem hnext rfl rfl rfl (fun j => ?_) fun j x hx => ?_
  · rcases eq_or_ne j i with rfl | hj
    · simp [hpc, hi]
    · simp [Function.update_of_ne hj]
  · rcases eq_or_ne j i with rfl | hj
    · simp only [Function.update_self] at hx
      simp [hx, ThreadPc.inHand] at hpc
    · simpa [Function.update_of_ne hj] using hx

omit J in
/-- A fact about a worker after worker `i` moved to `pc`. -/
theorem of_update {thread : Fin n → ThreadPc} {i j : Fin n} {pc : ThreadPc}
    {Q : ThreadPc → Prop} (h : Q (Function.update thread i pc j)) :
    (j = i ∧ Q pc) ∨ (j ≠ i ∧ Q (thread j)) := by
  rcases eq_or_ne j i with rfl | hj
  · exact Or.inl ⟨rfl, by simpa using h⟩
  · exact Or.inr ⟨hj, by simpa [Function.update_of_ne hj] using h⟩

/-- A worker that pulls from a queue with a job in it has the first job in hand. -/
theorem Inv.pull {s : Pool n J} {i : Fin n} {x : Node} {tp : Thpool J} (h : s.Inv)
    (hlen : 1 ≤ s.tp.len) (hp : thpoolJobqueuePull s.tp = some (x, tp)) :
    Inv { s with tp := tp, thread := Function.update s.thread i (.run x),
                 pulled := s.pulled ++ [x] } ∧
      s.tp.len = tp.len + 1 ∧ tp.v = if tp.len = 0 then s.tp.v else 1 := by
  obtain ⟨l, hr, hl, hpush, hmem⟩ := h.queue
  cases l with
  | nil => simp [hl] at hlen
  | cons y l =>
    obtain ⟨ring, heq, hr'⟩ := thpoolJobqueuePull_eq hr hl
    obtain ⟨rfl, rfl⟩ := Prod.mk.inj (Option.some.inj (heq.symm.trans hp))
    have hnd := h.nodup
    rw [hpush] at hnd
    have hnew : y ∉ s.pulled := fun hy => (List.nodup_append.1 hnd).2.2 y hy y (by simp) rfl
    -- the other workers' jobs were pulled before
    have hother : ∀ j, (s.thread j).inHand ≠ some y := fun j hj => hnew (h.inHand j y hj).1
    refine ⟨⟨⟨l, hr', rfl, by simp [hpush], fun x hx => hmem x (by simp [hx])⟩, h.fresh,
      fun x hx => List.mem_append_left _ (h.finished x hx), h.once, fun j x hx => ?_,
      fun j x hx => ?_, fun j k x hj hk => ?_⟩, by simpa using hl, by simp⟩
    · rcases of_update (Q := fun pc => pc = .run x) hx with ⟨-, hy⟩ | ⟨-, hx'⟩
      · obtain rfl := ThreadPc.run.inj hy
        exact fun hf => hnew (h.finished y hf)
      · exact h.running j x hx'
    · rcases of_update (Q := fun pc => pc.inHand = some x) hx with ⟨-, hy⟩ | ⟨-, hx'⟩
      · obtain rfl := Option.some.inj hy
        exact ⟨by simp, hmem y (by simp)⟩
      · exact ⟨List.mem_append_left _ (h.inHand j x hx').1, (h.inHand j x hx').2⟩
    · rcases of_update (Q := fun pc => pc.inHand = some x) hj with ⟨hji, hjy⟩ | ⟨-, hjx⟩ <;>
        rcases of_update (Q := fun pc => pc.inHand = some x) hk with ⟨hki, hky⟩ | ⟨-, hkx⟩
      · exact hji.trans hki.symm
      · exact (hother k (hkx.trans hjy.symm)).elim
      · exact (hother j (hjx.trans hky.symm)).elim
      · exact h.apart j k x hjx hkx

/-- A callback that returns finishes its job. -/
theorem Inv.run {s : Pool n J} {i : Fin n} {x : Node} (h : s.Inv) (hi : s.thread i = .run x) :
    Inv { s with thread := Function.update s.thread i (.free x),
                 finished := s.finished ++ [x] } := by
  have hix : (s.thread i).inHand = some x := by rw [hi]; rfl
  have hx := h.inHand i x hix
  have hhand : ∀ j, (Function.update s.thread i (.free x) j).inHand = (s.thread j).inHand := by
    intro j
    rcases eq_or_ne j i with rfl | hj
    · simp [hi, ThreadPc.inHand]
    · rw [Function.update_of_ne hj]
  refine ⟨h.queue, h.fresh, fun y hy => ?_, ?_, fun j y hy => ?_, by simpa [hhand] using h.inHand,
    by simpa [hhand] using h.apart⟩
  · rcases List.mem_append.1 hy with hy | hy
    · exact h.finished y hy
    · exact List.mem_singleton.1 hy ▸ hx.1
  · refine List.nodup_append.2 ⟨h.once, by simp, ?_⟩
    rintro a ha b hb rfl
    exact h.running i x hi (List.mem_singleton.1 hb ▸ ha)
  · rcases of_update (Q := fun pc => pc = .run y) hy with ⟨-, hy'⟩ | ⟨hji, hy'⟩
    · cases hy'
    · have hne : y ≠ x := by
        rintro rfl
        exact hji (h.apart j i y (by rw [hy']; rfl) hix)
      simpa [hne] using h.running j y hy'

/-- Freeing the job in hand leaves every other job allocated. -/
theorem Inv.free {s : Pool n J} {i : Fin n} {x : Node} (h : s.Inv)
    (hi : s.thread i = .free x) :
    Inv { s with tp := { s.tp with mem := Function.update s.tp.mem x none },
                 thread := Function.update s.thread i .uncount } := by
  obtain ⟨l, hr, hl, hpush, hmem⟩ := h.queue
  have hix : (s.thread i).inHand = some x := by rw [hi]; rfl
  have hx := h.inHand i x hix
  have hnd := h.nodup
  rw [hpush] at hnd
  have hother : ∀ j y, (Function.update s.thread i .uncount j).inHand = some y →
      y ≠ x ∧ (s.thread j).inHand = some y := by
    intro j y hy
    rcases of_update (Q := fun pc => pc.inHand = some y) hy with ⟨-, hy⟩ | ⟨hji, hy⟩
    · cases hy
    · exact ⟨fun he => hji (h.apart j i y hy (he ▸ hix)), hy⟩
  refine ⟨⟨l, hr, hl, hpush, fun y hy => ?_⟩, h.fresh, h.finished, h.once, fun j y hy => ?_,
    fun j y hy => ?_, fun j k y hj hk => h.apart j k y (hother j y hj).2 (hother k y hk).2⟩
  · have hne : y ≠ x := fun he => (List.nodup_append.1 hnd).2.2 x hx.1 y hy he.symm
    simpa [Function.update_of_ne hne] using hmem y hy
  · rcases of_update (Q := fun pc => pc = .run y) hy with ⟨-, hy'⟩ | ⟨-, hy'⟩
    · cases hy'
    · exact h.running j y hy'
  · obtain ⟨hne, hy⟩ := hother j y hy
    simpa [Function.update_of_ne hne] using h.inHand j y hy

/-- A worker's step keeps the invariant, if it does not pull from an empty queue. -/
theorem Inv.thread {s t : Pool n J} {i : Fin n} (h : s.Inv) (hok : s.PullOk (.thread i))
    (hst : poolStep s (.thread i) = some t) : t.Inv := by
  obtain ⟨pc, tp, hmove, rfl⟩ := exists_move hst
  generalize hpc : s.thread i = pc₀ at hmove
  have hhand : pc₀.inHand = none → (s.thread i).inHand = none := fun h => hpc ▸ h
  cases hmove with
  | pull hp => simpa [moved, hpc, pulledBy, finishedBy] using (h.pull (i := i) (hok hpc).1 hp).1
  | run _ => simpa [moved, hpc, pulledBy, finishedBy] using h.run hpc
  | free => simpa [moved, hpc, pulledBy, finishedBy] using h.free hpc
  | start | loop | wait | check | count | uncount | leave =>
    simp only [moved, hpc, pulledBy, finishedBy, List.append_nil]
    exact h.quiet rfl rfl rfl rfl rfl (hhand rfl)

theorem Inv.step {s t : Pool n J} {a : PoolLabel n J} (h : s.Inv) (hok : s.PullOk a)
    (hst : poolStep s a = some t) : t.Inv := by
  cases a with
  | addWork job => exact (h.addWork hst).1
  | thread i => exact h.thread hok hst

/-! ## What a step does to the wake-ups -/

/-- A step pushes a job, takes a wake-up, uses one for a job, or leaves the length, the
semaphore and the number of holders alone. -/
theorem Inv.tokens {s t : Pool n J} {a : PoolLabel n J} (h : s.Inv) (hok : s.PullOk a)
    (hst : poolStep s a = some t) :
    (t.tp.len = s.tp.len + 1 ∧ t.tp.v = 1 ∧ t.holders = s.holders) ∨
    ((∃ i, a = .thread i ∧ s.thread i = .wait) ∧ s.tp.v = 1 ∧ t.tp.v = 0 ∧
      t.tp.len = s.tp.len ∧ t.holders = s.holders + 1) ∨
    (s.tp.len = t.tp.len + 1 ∧ s.holders = t.holders + 1 ∧
      t.tp.v = if t.tp.len = 0 then s.tp.v else 1) ∨
    (t.tp.len = s.tp.len ∧ t.tp.v = s.tp.v ∧ t.holders = s.holders) := by
  cases a with
  | addWork job =>
    obtain ⟨-, hlen, hv, hth⟩ := h.addWork hst
    exact Or.inl ⟨hlen, hv, by rw [holders, holders, hth]⟩
  | thread i =>
    obtain ⟨pc, tp, hmove, rfl⟩ := exists_move hst
    have hcount := s.holders_moved i pc tp
    generalize hpc : s.thread i = pc₀ at hmove
    rw [hpc] at hcount
    cases hmove with
    | wait hv => exact Or.inr (Or.inl ⟨⟨i, rfl, hpc⟩, hv, rfl, rfl, hcount⟩)
    | pull hp =>
      obtain ⟨-, hlen, hv⟩ := h.pull (i := i) (hok hpc).1 hp
      exact Or.inr (Or.inr (Or.inl ⟨hlen, hcount.symm, hv⟩))
    | start | loop | check | count | run | free | uncount | leave =>
      exact Or.inr (Or.inr (Or.inr ⟨rfl, rfl, Nat.add_right_cancel hcount⟩))

/-- A worker at the pull holds a wake-up. -/
theorem holders_pos {s : Pool n J} {i : Fin n} (hi : (s.thread i).holds = true) :
    0 < s.holders :=
  threadCount_pos.2 ⟨i, hi⟩

/-- While a worker at the pull finds a job counted, the queue has one. -/
theorem Inv.pullOk {s : Pool n J} {a : PoolLabel n J} (h : s.Inv)
    (hlen : ∀ i, a = .thread i → s.thread i = .pull → 1 ≤ s.tp.len) : s.PullOk a := by
  cases a with
  | addWork job => trivial
  | thread i =>
    intro hi
    obtain ⟨l, hr, hl, -⟩ := h.queue
    have h1 := hlen i rfl hi
    refine ⟨h1, hr.succ_head_ne.2 ?_⟩
    rintro rfl
    simp [hl] at h1

/-- No more workers hold a wake-up than there are jobs. -/
def SurplusFree (s : Pool n J) : Prop :=
  s.Inv ∧ s.holders ≤ s.tp.len

theorem SurplusFree.pullOk {s : Pool n J} (h : s.SurplusFree) (a : PoolLabel n J) :
    s.PullOk a := by
  refine h.1.pullOk fun i _ hi => ?_
  have hpos := holders_pos (s := s) (i := i) (by rw [hi]; rfl)
  have hle := h.2
  omega

theorem surplusFree_init : (poolInit n J).SurplusFree :=
  ⟨inv_init, by simp [holders, threadCount, poolInit, ThreadPc.holds]⟩

/-- A conforming step keeps the wake-ups within the jobs. -/
theorem SurplusFree.step {s t : Pool n J} {a : PoolLabel n J} (h : s.SurplusFree)
    (hw : s.WakeOk a) (hst : poolStep s a = some t) : t.SurplusFree := by
  have hle := h.2
  refine ⟨h.1.step (h.pullOk a) hst, ?_⟩
  rcases h.1.tokens (h.pullOk a) hst with ⟨hl, -, hh⟩ | ⟨⟨i, rfl, hi⟩, -, -, hl, hh⟩ |
    ⟨hl, hh, -⟩ | ⟨hl, -, hh⟩
  · omega
  · have hlt : s.holders < s.tp.len := hw hi
    omega
  · omega
  · omega

/-- With one worker the wake-ups, posted and held, are within the jobs. -/
def OneWorker (s : Pool 1 J) : Prop :=
  s.Inv ∧ s.holders + s.tp.v ≤ s.tp.len

theorem OneWorker.surplusFree {s : Pool 1 J} (h : s.OneWorker) : s.SurplusFree :=
  ⟨h.1, (Nat.le_add_right _ _).trans h.2⟩

theorem oneWorker_init : (poolInit 1 J).OneWorker :=
  ⟨inv_init, by simp [holders, threadCount, poolInit, ThreadPc.holds, thpoolInit]⟩

theorem OneWorker.step {s t : Pool 1 J} {a : PoolLabel 1 J} (h : s.OneWorker)
    (hst : poolStep s a = some t) : t.OneWorker := by
  have hok := h.surplusFree.pullOk a
  have hle := h.2
  have hone : s.holders ≤ 1 := threadCount_le _ _
  refine ⟨h.1.step hok hst, ?_⟩
  rcases h.1.tokens hok hst with ⟨hl, hv, hh⟩ | ⟨-, hv, hv', hl, hh⟩ | ⟨hl, hh, hv⟩ | ⟨hl, hv, hh⟩
  · omega
  · omega
  · split at hv <;> omega
  · omega

/-- A lone worker takes a wake-up only for a queued job. -/
theorem OneWorker.wakeOk {s t : Pool 1 J} {a : PoolLabel 1 J} (h : s.OneWorker)
    (hst : poolStep s a = some t) : s.WakeOk a := by
  cases a with
  | addWork job => trivial
  | thread i =>
    intro hi
    obtain ⟨pc, tp, hmove, -⟩ := exists_move hst
    rw [hi] at hmove
    obtain ⟨hv⟩ := hmove
    have hle := h.2
    omega

/-! ## One worker on its own -/

/-- Worker `i` alone can get to `pc` without a pull. -/
def Drives (s : Pool n J) (i : Fin n) (pc : ThreadPc) : Prop :=
  ∃ tr t, (poolSystem n J).Path s tr t ∧ (∀ m ∈ tr, m.2.1 = .thread i ∧ m.1.PullOk m.2.1) ∧
    t.Inv ∧ t.thread = Function.update s.thread i pc ∧ t.tp.len = s.tp.len ∧ t.tp.v = s.tp.v ∧
    t.pulled = s.pulled

theorem Drives.refl {s : Pool n J} {i : Fin n} {pc : ThreadPc} (h : s.Inv)
    (hi : s.thread i = pc) : s.Drives i pc :=
  ⟨[], s, .nil, by simp, h, by rw [← hi, Function.update_eq_self], rfl, rfl, rfl⟩

theorem Drives.step {s : Pool n J} {i : Fin n} {pc₀ pc pc' : ThreadPc} {tp : Thpool J}
    (h : s.Inv) (hpc : s.thread i = pc₀) (hmove : ThreadMove s.tp pc₀ pc tp) (hne : pc₀ ≠ .pull)
    (hlen : tp.len = s.tp.len) (hv : tp.v = s.tp.v)
    (hd : (s.moved i pc tp).Inv → (s.moved i pc tp).Drives i pc') : s.Drives i pc' := by
  subst hpc
  have hok : s.PullOk (.thread i) := fun hi => (hne hi).elim
  have hst := poolStep_of_move rfl hmove
  have hpulled : (s.moved i pc tp).pulled = s.pulled := by
    cases hpc : s.thread i <;> simp_all [moved, pulledBy]
  obtain ⟨tr, t, hp, hall, hinv, hth, hlen', hv', hpulled'⟩ := hd (h.thread hok hst)
  refine ⟨_, t, hp.cons (show (poolSystem n J).step s (.thread i) _ from hst), ?_, hinv, ?_,
    hlen'.trans hlen, hv'.trans hv, hpulled'.trans hpulled⟩
  · intro m hm
    rcases List.mem_cons.1 hm with rfl | hm
    · exact ⟨rfl, hok⟩
    · exact hall m hm
  · rw [hth, moved_thread, Function.update_idem]

/-- A worker that holds a wake-up goes on to the pull. -/
theorem Inv.drives_pull {s : Pool n J} {i : Fin n} (h : s.Inv)
    (hi : (s.thread i).holds = true) : s.Drives i .pull := by
  have hcount : ∀ s : Pool n J, s.Inv → s.thread i = .count → s.Drives i .pull :=
    fun s h hpc => .step h hpc .count nofun rfl rfl fun h' => .refl h' (by simp)
  cases hpc : s.thread i with
  | pull => exact .refl h hpc
  | count => exact hcount s h hpc
  | check =>
    exact .step h hpc .check nofun rfl rfl fun h' => hcount _ h' (by simp)
  | start | loop | wait | run | free | uncount | leave | exited =>
    simp [hpc, ThreadPc.holds] at hi

/-- A worker that neither holds a wake-up nor has left gets back to the semaphore. -/
theorem Inv.drives_wait {s : Pool n J} {i : Fin n} (h : s.Inv)
    (hi : (s.thread i).holds = false) (hleave : s.thread i ≠ .leave)
    (hexit : s.thread i ≠ .exited) : s.Drives i .wait := by
  have hloop : ∀ s : Pool n J, s.Inv → s.thread i = .loop → s.Drives i .wait :=
    fun s h hpc => .step h hpc .loop nofun rfl rfl fun h' => .refl h' (by simp)
  have huncount : ∀ s : Pool n J, s.Inv → s.thread i = .uncount → s.Drives i .wait :=
    fun s h hpc => .step h hpc .uncount nofun rfl rfl fun h' =>
      hloop _ h' (by simp)
  have hfree : ∀ (s : Pool n J) (x : Node), s.Inv → s.thread i = .free x → s.Drives i .wait :=
    fun s x h hpc => .step h hpc .free nofun rfl rfl fun h' =>
      huncount _ h' (by simp)
  cases hpc : s.thread i with
  | start =>
    exact .step h hpc .start nofun rfl rfl fun h' => hloop _ h' (by simp)
  | loop => exact hloop s h hpc
  | wait => exact .refl h hpc
  | run x =>
    have hx := (h.inHand i x (by rw [hpc]; rfl)).2
    exact .step h hpc (.run hx) nofun rfl rfl fun h' => hfree _ x h' (by simp)
  | free x => exact hfree s x h hpc
  | uncount => exact huncount s h hpc
  | leave => exact (hleave hpc).elim
  | exited => exact (hexit hpc).elim
  | check | count | pull => simp [hpc, ThreadPc.holds] at hi

/-! ## A surplus wake-up -/

/-- An empty queue can be pulled from : the head detaches itself. -/
theorem Inv.exists_step_of_empty {s : Pool n J} {i : Fin n} (h : s.Inv)
    (hi : s.thread i = .pull) (hlen : s.tp.len = 0) :
    ∃ t, (poolSystem n J).step s (.thread i) t ∧ ¬s.PullOk (.thread i) := by
  obtain ⟨l, hr, hl, -⟩ := h.queue
  obtain rfl : l = [] := List.eq_nil_of_length_eq_zero (hl.symm.trans hlen)
  obtain ⟨ring, heq, -⟩ := ringDetach_eq hr.seg.1 hr.seg.2
  have hpull : thpoolJobqueuePull s.tp = some (.jobHead, { s.tp with ring := ring }) := by
    simp [thpoolJobqueuePull, hr.seg.1, heq, hlen]
  refine ⟨_, poolStep_of_move hi (.pull hpull), fun hok => ?_⟩
  have hpos := (hok hi).1
  omega

/-- If more workers hold a wake-up than there are jobs, the workers alone can go on to a pull
from an empty queue. -/
theorem Inv.exists_empty_pull {s : Pool n J} (h : s.Inv) (hs : s.tp.len < s.holders) :
    ∃ tr t, (poolSystem n J).Path s tr t ∧ (∀ m ∈ tr, ∃ i, m.2.1 = .thread i) ∧
      ∃ m ∈ tr, ¬m.1.PullOk m.2.1 := by
  induction hk : s.tp.len generalizing s with
  | zero =>
    obtain ⟨i, hi⟩ := threadCount_pos.1 (Nat.zero_lt_of_lt hs)
    obtain ⟨tr, t, hp, hall, hinv, hth, hlen, -⟩ := h.drives_pull hi
    obtain ⟨u, hst, hbad⟩ := hinv.exists_step_of_empty (i := i) (by simp [hth]) (hlen.trans hk)
    refine ⟨_, u, hp.snoc hst, fun m hm => ?_, (t, .thread i, u), by simp, hbad⟩
    rcases List.mem_append.1 hm with hm | hm
    · exact ⟨i, (hall m hm).1⟩
    · exact ⟨i, by rw [List.mem_singleton.1 hm]⟩
  | succ k ih =>
    obtain ⟨i, hi⟩ := threadCount_pos.1 (Nat.zero_lt_of_lt hs)
    obtain ⟨tr, t, hp, hall, hinv, hth, hlen, -⟩ := h.drives_pull hi
    have hti : t.thread i = .pull := by simp [hth]
    have hholders : t.holders = s.holders := by
      have hcount := threadCount_update ThreadPc.holds s.thread i .pull
      rw [hi] at hcount
      rw [holders, hth]
      exact Nat.add_right_cancel hcount
    -- the pull uses up one wake-up and one job
    obtain ⟨l, hr, hl, -⟩ := hinv.queue
    cases l with
    | nil => simp [hl, hk] at hlen
    | cons x l =>
      obtain ⟨ring, heq, -⟩ := thpoolJobqueuePull_eq hr hl
      have hst := poolStep_of_move hti (.pull heq)
      have hok : t.PullOk (.thread i) := hinv.pullOk fun _ _ _ => by omega
      have hlen' : t.tp.len = l.length + 1 := hl
      have hcount := t.holders_moved i (.run x) { t.tp with
        ring := ring, len := l.length, v := if l = [] then t.tp.v else 1 }
      rw [hti] at hcount
      simp only [ThreadPc.holds, Bool.toNat_true, Bool.toNat_false] at hcount
      obtain ⟨tr', u, hp', hall', hbad⟩ :=
        ih (hinv.step hok hst) (by simp only [moved_tp]; omega) (by simp only [moved_tp]; omega)
      refine ⟨_, u, hp.trans (hp'.cons hst), fun m hm => ?_, ?_⟩
      · rcases List.mem_append.1 hm with hm | hm
        · exact ⟨i, (hall m hm).1⟩
        · rcases List.mem_cons.1 hm with rfl | hm
          · exact ⟨i, rfl⟩
          · exact hall' m hm
      · obtain ⟨m, hm, hbad⟩ := hbad
        exact ⟨m, List.mem_append_right _ (List.mem_cons_of_mem _ hm), hbad⟩

/-! ## First in, first out -/

/-- The queue is sound all along a run, and no pull is from an empty one. -/
def RunFifo (tr : List (Pool n J × PoolLabel n J × Pool n J)) (s : Pool n J) : Prop :=
  s.Fifo ∧ ∀ m ∈ tr, m.1.Fifo ∧ m.1.PullOk m.2.1

/-- Every run of a pool of `n` workers is sound. -/
def AlwaysFifo (n : ℕ) (J : Type) : Prop :=
  ∀ tr s, (poolSystem n J).Run tr s → RunFifo tr s

theorem surplusFree_of_conform {tr : List (Pool n J × PoolLabel n J × Pool n J)} {s : Pool n J}
    (h : (poolSystem n J).Run tr s) (hw : ∀ m ∈ tr, m.1.WakeOk m.2.1) :
    s.SurplusFree ∧ ∀ m ∈ tr, m.1.SurplusFree := by
  obtain ⟨s₀, rfl, hp⟩ := h
  obtain ⟨hs, hall⟩ := hp.invariant_of surplusFree_init
    (fun _ _ _ ht hC hst => SurplusFree.step ht hC hst) hw
  exact ⟨hs, fun m hm => (hall m hm).1⟩

theorem runFifo_of_conform {tr : List (Pool n J × PoolLabel n J × Pool n J)} {s : Pool n J}
    (h : (poolSystem n J).Run tr s) (hw : ∀ m ∈ tr, m.1.WakeOk m.2.1) : RunFifo tr s := by
  obtain ⟨hs, hall⟩ := surplusFree_of_conform h hw
  exact ⟨hs.1.fifo, fun m hm => ⟨(hall m hm).1.fifo, (hall m hm).pullOk m.2.1⟩⟩

/-- A wake-up taken in a conforming run while as many workers hold one as there are jobs
leads to a pull from an empty queue, if the workers go on alone. -/
theorem exists_empty_pull_of_surplus {tr : List (Pool n J × PoolLabel n J × Pool n J)}
    {s t : Pool n J} {a : PoolLabel n J} (h : (poolSystem n J).Run tr s)
    (hw : ∀ m ∈ tr, m.1.WakeOk m.2.1) (hst : poolStep s a = some t) (hbad : ¬s.WakeOk a) :
    ∃ tr' u, (poolSystem n J).Path t tr' u ∧ (∀ m ∈ tr', ∃ i, m.2.1 = .thread i) ∧
      ∃ m ∈ tr', ¬m.1.PullOk m.2.1 := by
  have hs := (surplusFree_of_conform h hw).1
  have hok := hs.pullOk a
  refine (hs.1.step hok hst).exists_empty_pull ?_
  cases a with
  | addWork job => exact (hbad trivial).elim
  | thread i =>
    simp only [WakeOk, not_forall, not_lt] at hbad
    obtain ⟨hi, hle⟩ := hbad
    obtain ⟨pc, tp, hmove, rfl⟩ := exists_move hst
    have hcount := s.holders_moved i pc tp
    rw [hi] at hmove hcount
    obtain ⟨hv⟩ := hmove
    simp only [ThreadPc.holds, Bool.toNat_true, Bool.toNat_false] at hcount
    simp only [moved_tp]
    omega

theorem alwaysFifo_one : AlwaysFifo 1 J := by
  intro tr s h
  have hinv := h.invariant (P := OneWorker) (by rintro _ rfl; exact oneWorker_init)
    fun _ _ _ ht hst => ht.step hst
  obtain ⟨s₀, hs₀, hp⟩ := h
  exact runFifo_of_conform ⟨s₀, hs₀, hp⟩ fun m hm =>
    ((hinv.2 m hm).1).wakeOk (hp.step_of_mem hm)

/-- Two workers take a wake-up each for the first two jobs, the first of them pulls and takes
the wake-up its own pull has posted, the second pulls the last job, and the first pulls. -/
def surplusLabels (w₀ w₁ : Fin n) (job : J) : List (PoolLabel n J) :=
  [.addWork job, .thread w₀, .thread w₀, .addWork job, .thread w₁, .thread w₁] ++
  List.replicate 8 (.thread w₀) ++ List.replicate 3 (.thread w₁) ++
  List.replicate 3 (.thread w₀)

/-- With two workers or more, some run pulls from an empty queue. -/
theorem not_alwaysFifo [Inhabited J] (hn : 2 ≤ n) : ¬AlwaysFifo n J := by
  intro hall
  set w₀ : Fin n := ⟨0, by omega⟩
  set w₁ : Fin n := ⟨1, by omega⟩
  have hend : ((surplusLabels w₀ w₁ (default : J)).foldlM poolStep (poolInit n J)).map
      (fun t => (t.thread w₀, (t.tp.mem .jobHead).isSome)) = some (.run .jobHead, false) := by
    rfl
  obtain ⟨t, ht, hrun⟩ := Option.map_eq_some_iff.1 hend
  obtain ⟨hw₀, hmem⟩ := Prod.mk.inj hrun
  obtain ⟨tr, hp, -⟩ := LTS.Path.of_foldlM (S := poolSystem n J) (fun _ _ _ h => h) ht
  have hfifo := (hall tr t ⟨_, rfl, hp⟩).1
  have hjob := (hfifo.inHand w₀ .jobHead (by rw [hw₀]; rfl)).2
  rw [hmem] at hjob
  exact Bool.false_ne_true hjob

/-- The queue is first in, first out all along a run in which a worker takes a wake-up only
while fewer workers hold one than there are jobs. From the first wake-up taken otherwise, the
workers alone can go on to a pull from an empty queue. So every run of the pool is sound if
and only if it has one worker. -/
theorem fifo_iff_wakeups [Inhabited J] (n : ℕ) (hn : 1 ≤ n) :
    (∀ (tr : List (Pool n J × PoolLabel n J × Pool n J)) (s : Pool n J),
      (poolSystem n J).Run tr s → (∀ m ∈ tr, m.1.WakeOk m.2.1) → RunFifo tr s) ∧
    (∀ (tr : List (Pool n J × PoolLabel n J × Pool n J)) (s t : Pool n J) (a : PoolLabel n J),
      (poolSystem n J).Run tr s → (∀ m ∈ tr, m.1.WakeOk m.2.1) → poolStep s a = some t →
      ¬s.WakeOk a → ∃ tr' u, (poolSystem n J).Path t tr' u ∧
        (∀ m ∈ tr', ∃ i, m.2.1 = .thread i) ∧ ∃ m ∈ tr', ¬m.1.PullOk m.2.1) ∧
    (AlwaysFifo n J ↔ n = 1) := by
  refine ⟨fun tr s h hw => runFifo_of_conform h hw,
    fun tr s t a h hw hst hbad => exists_empty_pull_of_surplus h hw hst hbad, ?_, ?_⟩
  · intro hall
    by_contra hne
    exact not_alwaysFifo (by omega) hall
  · rintro rfl
    exact alwaysFifo_one

theorem fifo_iff_wakeups_two : ¬AlwaysFifo 2 ℕ := fun h => by
  have h2 := (fifo_iff_wakeups (J := ℕ) 2 (by decide)).2.2.1 h
  omega

theorem not_alwaysFifo_two : ¬∀ n, 1 ≤ n → AlwaysFifo n ℕ :=
  fun h => not_alwaysFifo le_rfl (h 2 (by decide))

/-! ## No lost wake-up -/

/-- A queued job has a wake-up, posted or held, and no worker has left its loop. -/
structure Woken (s : Pool n J) : Prop where
  inv : s.Inv
  wakeup : 0 < s.tp.len → s.tp.v = 1 ∨ 0 < s.holders
  stays : ∀ i, s.thread i ≠ .leave ∧ s.thread i ≠ .exited

theorem woken_init : (poolInit n J).Woken :=
  ⟨inv_init, by simp [poolInit, thpoolInit], by simp [poolInit]⟩

theorem Woken.step {s t : Pool n J} {a : PoolLabel n J} (h : s.Woken) (hok : s.PullOk a)
    (hst : poolStep s a = some t) : t.Woken := by
  refine ⟨h.inv.step hok hst, fun hlen => ?_, fun i => ?_⟩
  · have hw := h.wakeup
    rcases h.inv.tokens hok hst with ⟨-, hv, -⟩ | ⟨-, -, -, -, hh⟩ | ⟨-, -, hv⟩ | ⟨hl, hv, hh⟩
    · exact Or.inl hv
    · exact Or.inr (by omega)
    · exact Or.inl (by rw [hv, if_neg hlen.ne'])
    · rw [hv, hh]
      exact hw (hl ▸ hlen)
  · cases a with
    | addWork job => rw [(h.inv.addWork hst).2.2.2]; exact h.stays i
    | thread j =>
      obtain ⟨pc, tp, hmove, rfl⟩ := exists_move hst
      have hj := h.stays j
      rcases eq_or_ne i j with rfl | hij
      · generalize s.thread i = pc₀ at hmove hj
        rw [moved_thread, Function.update_self]
        cases hmove <;> simp_all
      · simpa [Function.update_of_ne hij] using h.stays i

theorem Woken.path {s t : Pool n J} {tr : List (Pool n J × PoolLabel n J × Pool n J)}
    (h : s.Woken) (hp : (poolSystem n J).Path s tr t) (hok : ∀ m ∈ tr, m.1.PullOk m.2.1) :
    t.Woken :=
  (hp.invariant_of h (fun _ _ _ ht hC hst => ht.step hC hst) hok).1

/-- The workers alone get from `s` to `t`, pulling only from a queue with a job in it. -/
def WorkersReach (s t : Pool n J) : Prop :=
  ∃ tr, (poolSystem n J).Path s tr t ∧ ∀ m ∈ tr, (∃ i, m.2.1 = .thread i) ∧ m.1.PullOk m.2.1

theorem WorkersReach.refl (s : Pool n J) : s.WorkersReach s :=
  ⟨[], .nil, by simp⟩

theorem WorkersReach.trans {s t u : Pool n J} (h : s.WorkersReach t) (h' : t.WorkersReach u) :
    s.WorkersReach u := by
  obtain ⟨tr, hp, hall⟩ := h
  obtain ⟨tr', hp', hall'⟩ := h'
  exact ⟨tr ++ tr', hp.trans hp', fun m hm => (List.mem_append.1 hm).elim (hall m) (hall' m)⟩

theorem WorkersReach.of_step {s t : Pool n J} {i : Fin n}
    (hst : poolStep s (.thread i) = some t) (hok : s.PullOk (.thread i)) : s.WorkersReach t :=
  ⟨_, .single hst, fun m hm => by obtain rfl := List.mem_singleton.1 hm; exact ⟨⟨i, rfl⟩, hok⟩⟩

theorem Drives.workersReach {s : Pool n J} {i : Fin n} {pc : ThreadPc} (h : s.Drives i pc) :
    ∃ t, s.WorkersReach t ∧ t.Inv ∧ t.thread = Function.update s.thread i pc ∧
      t.tp.len = s.tp.len ∧ t.tp.v = s.tp.v := by
  obtain ⟨tr, t, hp, hall, hinv, hth, hlen, hv, -⟩ := h
  exact ⟨t, ⟨tr, hp, fun m hm => ⟨⟨i, (hall m hm).1⟩, (hall m hm).2⟩⟩, hinv, hth, hlen, hv⟩

theorem WorkersReach.woken {s t : Pool n J} (h : s.WorkersReach t) (hs : s.Woken) : t.Woken := by
  obtain ⟨tr, hp, hall⟩ := h
  exact hs.path hp fun m hm => (hall m hm).2

theorem WorkersReach.pushed {s t : Pool n J} (h : s.WorkersReach t) : t.pushed = s.pushed := by
  obtain ⟨tr, hp, hall⟩ := h
  refine (hp.invariant_of (P := fun u => u.pushed = s.pushed)
    (C := fun _ a => ∃ i, a = PoolLabel.thread i) rfl ?_ fun m hm => (hall m hm).1).1
  rintro t _ u ht ⟨i, rfl⟩ hst
  obtain ⟨pc, tp, -, rfl⟩ := exists_move hst
  exact ht

/-- A worker that holds a wake-up pulls one of the queued jobs. -/
theorem Inv.workersReach_pull {s : Pool n J} {i : Fin n} (h : s.Inv)
    (hi : (s.thread i).holds = true) (hlen : 0 < s.tp.len) :
    ∃ t, s.WorkersReach t ∧ s.tp.len = t.tp.len + 1 := by
  obtain ⟨t, hr, hinv, hth, hlen', -⟩ := (h.drives_pull hi).workersReach
  have hti : t.thread i = .pull := by simp [hth]
  obtain ⟨l, hring, hl, -⟩ := hinv.queue
  cases l with
  | nil => simp [hl] at hlen'; omega
  | cons x l =>
    obtain ⟨ring, heq, -⟩ := thpoolJobqueuePull_eq hring hl
    have hst := poolStep_of_move hti (.pull heq)
    have hok : t.PullOk (.thread i) := hinv.pullOk fun _ _ _ => by omega
    exact ⟨_, hr.trans (.of_step hst hok), by simpa [hlen'] using hl⟩

/-- While a job is queued, the workers alone get one job further. -/
theorem Woken.workersReach_pull {s : Pool n J} (h : s.Woken) (hn : 1 ≤ n)
    (hlen : 0 < s.tp.len) : ∃ t, s.WorkersReach t ∧ s.tp.len = t.tp.len + 1 := by
  by_cases hhold : 0 < s.holders
  · obtain ⟨i, hi⟩ := threadCount_pos.1 hhold
    exact h.inv.workersReach_pull hi hlen
  · -- nobody holds the wake-up : it is posted, and any worker can come and take it
    have hv : s.tp.v = 1 := (h.wakeup hlen).resolve_right hhold
    have hi : (s.thread ⟨0, hn⟩).holds = false :=
      Bool.eq_false_iff.2 fun hi => hhold (holders_pos hi)
    obtain ⟨hleave, hexit⟩ := h.stays ⟨0, hn⟩
    obtain ⟨t, hr, hinv, hth, hlen', hv'⟩ :=
      (h.inv.drives_wait hi hleave hexit).workersReach
    have hti : t.thread ⟨0, hn⟩ = .wait := by simp [hth]
    have hst := poolStep_of_move hti (.wait (hv'.trans hv))
    have hok : t.PullOk (.thread ⟨0, hn⟩) := by simp [PullOk, hti]
    obtain ⟨u, hr', hu⟩ := (hinv.step hok hst).workersReach_pull (i := ⟨0, hn⟩) (by simp; rfl)
      (by simpa [hlen'] using hlen)
    exact ⟨u, (hr.trans (.of_step hst hok)).trans hr', by simpa [hlen'] using hu⟩

/-- The workers alone can empty the queue. -/
theorem Woken.workersReach_empty {s : Pool n J} (h : s.Woken) (hn : 1 ≤ n) :
    ∃ t, s.WorkersReach t ∧ t.tp.len = 0 := by
  induction hk : s.tp.len generalizing s with
  | zero => exact ⟨s, .refl s, hk⟩
  | succ k ih =>
    obtain ⟨t, hr, hlen⟩ := h.workersReach_pull hn (by omega)
    obtain ⟨u, hr', hu⟩ := ih (hr.woken h) (by omega)
    exact ⟨u, hr.trans hr', hu⟩

/-- No lost wake-up : while a job is queued, the semaphore is up or a worker has returned from
it and has not pulled yet. The workers never all sleep on a queued job, and from every state
they can pull every job that was added. -/
theorem no_lost_wakeup {n : ℕ} (hn : 1 ≤ n) {s : Pool n J}
    {tr : List (Pool n J × PoolLabel n J × Pool n J)} (h : (poolSystem n J).Run tr s)
    (hok : ∀ m ∈ tr, m.1.PullOk m.2.1) :
    (0 < s.tp.len → s.tp.v = 1 ∨ ∃ i, (s.thread i).holds = true) ∧
    ¬(0 < s.tp.len ∧ s.tp.v = 0 ∧ ∀ i, s.thread i = .wait) ∧
    ∃ t, s.WorkersReach t ∧ t.tp.len = 0 ∧ t.pulled = s.pushed.map .job := by
  obtain ⟨s₀, rfl, hp⟩ := h
  have hw := woken_init.path hp hok
  have hwake : 0 < s.tp.len → s.tp.v = 1 ∨ ∃ i, (s.thread i).holds = true := fun hlen =>
    (hw.wakeup hlen).imp_right threadCount_pos.1
  refine ⟨hwake, ?_, ?_⟩
  · rintro ⟨hlen, hv, hall⟩
    rcases hwake hlen with hv' | ⟨i, hi⟩
    · omega
    · simp [hall i, ThreadPc.holds] at hi
  · obtain ⟨t, hr, hlen⟩ := hw.workersReach_empty hn
    obtain ⟨l, -, hl, hpush, -⟩ := (hr.woken hw).inv.queue
    obtain rfl : l = [] := List.eq_nil_of_length_eq_zero (hl.symm.trans hlen)
    exact ⟨t, hr, hlen, by rw [← hr.pushed, hpush, List.append_nil]⟩

/-- Two workers and three jobs. One worker has pulled the first job while two are added, and all of
them can be pulled. -/
theorem no_lost_wakeup_two : ∃ s : Pool 2 ℕ, (poolSystem 2 ℕ).Reach s ∧ s.tp.len = 2 ∧
    s.thread 0 = .run (.job 0) ∧ (s.tp.v = 1 ∨ ∃ i, (s.thread i).holds = true) ∧
    ∃ t, s.WorkersReach t ∧ t.tp.len = 0 ∧ t.pulled = [.job 0, .job 1, .job 2] := by
  let step (s : Pool 2 ℕ) (a : PoolLabel 2 ℕ) := if s.PullOk a then poolStep s a else none
  have hadd : ([.thread 0, .thread 1, .addWork 7, .thread 0, .thread 0, .thread 0, .thread 0,
      .addWork 8, .addWork 9, .thread 1, .thread 1].foldlM step (poolInit 2 ℕ)).any (fun s =>
        s.tp.len = 2 ∧ s.thread 0 = .run (.job 0) ∧ s.pushed = [0, 1, 2]) = true := by
    decide +kernel
  obtain ⟨s, hst, hobs⟩ := (Option.any_eq_true _ _).1 hadd
  obtain ⟨hlen, hthread, hpushed⟩ := of_decide_eq_true hobs
  obtain ⟨tr, hp, -, hok⟩ := LTS.Path.of_foldlM_of (S := poolSystem 2 ℕ) (fun _ _ _ h => h) hst
  obtain ⟨hwake, -, hdrain⟩ := no_lost_wakeup (by decide) ⟨_, rfl, hp⟩ hok
  rw [hpushed] at hdrain
  exact ⟨s, ⟨tr, _, rfl, hp⟩, hlen, hthread, hwake (by omega), hdrain⟩

end Pool

end Nowra
