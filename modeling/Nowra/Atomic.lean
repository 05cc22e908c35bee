import Nowra.Exclusion
import Nowra.Pools
import Nowra.Simulation

/-!
# The pool in atomic steps

The code of a pool with each lock, unlock and update a step of its own (`destroySystem`) does
nothing that the pool in atomic steps (`lifeSystem`) cannot do : a wait takes effect when it clears
the value of the semaphore, a pull and a push when they post, or where the pull does not post when
it detaches the job, and the clean-up when it sets the length.

A job has a number in each of the two systems, as one numbers the jobs when they are allocated and
the other when they are pushed. So the queue of one is the queue of the other with the numbers in
the list of jobs pushed so far (`QueueMirror`, `Mirrors`), and while a thread is between the update
of the queue and the post, without this update.
-/

namespace Nowra

variable {n : ℕ} {J : Type}

/-- The pool in atomic steps, with a flag that other pools write. -/
def lifeSystem (n : ℕ) (J : Type) :
    LTS (Bool × Life n J Empty) (LifeLabel n J Empty ⊕ Bool) where
  init s := s = (false, (lifeComp n J Empty).init)
  step s a t := match a with
    | .inl a => lifeStep s.1 s.2 a = some t
    | .inr b => t = (b, s.2)

/-! ## The numbers of the jobs -/

/-- The number of a job is its place among those pushed. -/
def Node.rename (ids : List ℕ) : Node → Node
  | .jobHead => .jobHead
  | .job id => .job (ids.idxOf id)

def ThreadPc.rename (ids : List ℕ) : ThreadPc → ThreadPc
  | .run jobP => .run (jobP.rename ids)
  | .free jobP => .free (jobP.rename ids)
  | pc => pc

def CallerPc.toLife (n : ℕ) : CallerPc → LifePc
  | .making => .making n
  | .live => .live
  | .poll | .clearing => .poll
  | .post => .post
  | .freed => .freed

/-- The job a thread is adding. -/
def Task.newjob : Task → Option ℕ
  | .adding newjob | .put newjob => some newjob
  | _ => none

/-- The update of the queue that a thread has made and not posted. -/
def Task.onQueue : Task → Option (ℕ ⊕ Node)
  | .put newjob => some (.inl newjob)
  | .took jobP => some (.inr jobP)
  | _ => none

variable {t : Option (Fin n)} {m m' : PoolMem n J} {place : Option (Fin n) → Place} {q' : Place}
  {ids : List ℕ}

/-- The jobs pushed so far, in order, among those of the pool. -/
structure Named (m : PoolMem n J) (place : Option (Fin n) → Place) (ids : List ℕ) : Prop where
  nodup : ids.Nodup
  lt : ∀ id ∈ ids, id < m.tp.nextJob
  adds : ∀ u id, (place u).task.newjob = some id →
    id ∉ ids ∧ id < m.tp.nextJob ∧ (m.tp.mem (.job id)).isSome
  inj : ∀ u v id, (place u).task.newjob = some id → (place v).task.newjob = some id → u = v
  hand : ∀ u id, (place u).Has (.job id) → id ∈ ids

/-- A step that pushes no job. -/
theorem Named.update (h : Named m place ids) (hnext : m'.tp.nextJob = m.tp.nextJob)
    (hmem : ∀ id, id ∉ ids → m'.tp.mem (.job id) = m.tp.mem (.job id))
    (hadd : q'.task.newjob = none ∨ q'.task.newjob = (place t).task.newjob)
    (hhand : ∀ id, q'.Has (.job id) → id ∈ ids) : Named m' (Function.update place t q') ids := by
  -- who adds a job after the step added it before
  have hold (u : Option (Fin n)) (id : ℕ)
      (hu : (Function.update place t q' u).task.newjob = some id) :
      (place u).task.newjob = some id := by
    by_cases he : u = t
    · subst he
      rw [Function.update_self] at hu
      rcases hadd with hadd | hadd <;> rw [hadd] at hu
      · cases hu
      · exact hu
    · rwa [Function.update_of_ne he] at hu
  refine ⟨h.nodup, fun id hid => hnext ▸ h.lt id hid, fun u id hu => ?_, fun u v id hu hv =>
    h.inj u v id (hold u id hu) (hold v id hv), ?_⟩
  · obtain ⟨hid, hlt, hsome⟩ := h.adds u id (hold u id hu)
    exact ⟨hid, hnext ▸ hlt, by rwa [hmem id hid]⟩
  · exact (Function.forall_update_iff place fun _ q => ∀ id, q.Has (.job id) → id ∈ ids).2
      ⟨hhand, fun u _ => h.hand u⟩

/-- A job is allocated. -/
theorem Named.newJob (h : Named m place ids) (job : J) {pc : PoolPc} {held : List PoolMutex}
    (hpc : (place t).pc = pc) :
    Named (m.newJob job) (Function.update place t ⟨pc, held, .adding m.tp.nextJob⟩) ids where
  nodup := h.nodup
  lt id hid := (h.lt id hid).trans (Nat.lt_succ_self _)
  adds := by
    refine (Function.forall_update_iff place fun _ q => ∀ id, q.task.newjob = some id → id ∉ ids ∧
      id < (m.newJob job).tp.nextJob ∧ ((m.newJob job).tp.mem (.job id)).isSome).2 ⟨?_, ?_⟩
    · rintro id ⟨rfl⟩
      exact ⟨fun hid => (h.lt _ hid).false, Nat.lt_succ_self _, by simp [PoolMem.newJob]⟩
    · intro u _ id hu
      obtain ⟨hid, hlt, hsome⟩ := h.adds u id hu
      refine ⟨hid, hlt.trans (Nat.lt_succ_self _), ?_⟩
      have hne : Node.job id ≠ .job m.tp.nextJob := by simpa using hlt.ne
      simpa [PoolMem.newJob, Function.update_of_ne hne] using hsome
  inj u v id hu hv := by
    have hlt {w : Option (Fin n)} (hw : (place w).task.newjob = some id) : id ≠ m.tp.nextJob :=
      (h.adds w id hw).2.1.ne
    by_cases hut : u = t <;> by_cases hvt : v = t
    · rw [hut, hvt]
    · subst hut
      rw [Function.update_self] at hu
      rw [Function.update_of_ne hvt] at hv
      exact absurd (Option.some.inj hu).symm (hlt hv)
    · subst hvt
      rw [Function.update_self] at hv
      rw [Function.update_of_ne hut] at hu
      exact absurd (Option.some.inj hv).symm (hlt hu)
    · rw [Function.update_of_ne hut] at hu
      rw [Function.update_of_ne hvt] at hv
      exact h.inj u v id hu hv
  hand := by
    refine (Function.forall_update_iff place fun _ q => ∀ id, q.Has (.job id) → id ∈ ids).2
      ⟨fun id hid => h.hand t id ?_, fun u _ => h.hand u⟩
    simpa [Place.Has, hpc] using hid

/-- A push takes effect. -/
theorem Named.postPut (h : Named m place ids) {pc : PoolPc} {held : List PoolMutex} {id : ℕ}
    (hq : (place t).pc = pc) (htask : (place t).task = .put id)
    (htp : m'.tp.nextJob = m.tp.nextJob ∧ m'.tp.mem = m.tp.mem) :
    Named m' (Function.update place t ⟨pc, held, .idle⟩) (ids ++ [id]) := by
  have hput : (place t).task.newjob = some id := by rw [htask]; rfl
  obtain ⟨hid, hlt, -⟩ := h.adds t id hput
  have hother (u : Option (Fin n)) (x : ℕ)
      (hu : (Function.update place t ⟨pc, held, .idle⟩ u).task.newjob = some x) :
      u ≠ t ∧ (place u).task.newjob = some x := by
    by_cases he : u = t
    · subst he
      rw [Function.update_self] at hu
      cases hu
    · exact ⟨he, by rwa [Function.update_of_ne he] at hu⟩
  refine ⟨?_, ?_, fun u x hu => ?_, fun u v x hu hv =>
    h.inj u v x (hother u x hu).2 (hother v x hv).2, ?_⟩
  · exact List.nodup_append.2 ⟨h.nodup, by simp, by
      rintro x hx y hy rfl
      exact hid (List.mem_singleton.1 hy ▸ hx)⟩
  · intro x hx
    rw [htp.1]
    rcases List.mem_append.1 hx with hx | hx
    · exact h.lt x hx
    · rw [List.mem_singleton.1 hx]
      exact hlt
  · obtain ⟨hne, hold⟩ := hother u x hu
    obtain ⟨hx, hxlt, hsome⟩ := h.adds u x hold
    refine ⟨?_, htp.1 ▸ hxlt, htp.2 ▸ hsome⟩
    simp only [List.mem_append, List.mem_singleton, not_or]
    refine ⟨hx, ?_⟩
    rintro rfl
    exact hne (h.inj u t x hold hput)
  · refine (Function.forall_update_iff place fun _ q => ∀ x, q.Has (.job x) → x ∈ ids ++ [id]).2
      ⟨fun x hx => ?_, fun u _ x hx => List.mem_append_left _ (h.hand u x hx)⟩
    refine List.mem_append_left _ (h.hand t x ?_)
    simpa [Place.Has, hq] using hx

/-! ## The queue -/

/-- The update of the queue that is not posted yet. -/
def queuePart (m : PoolMem n J) (place : Option (Fin n) → Place) : Option (ℕ ⊕ Node) :=
  (m.owner .rwmutex).bind fun u => (place u).task.onQueue

/-- What the queue was before the update that is not posted yet. -/
def QueueBefore (part : Option (ℕ ⊕ Node)) (queue before : List ℕ) : Prop :=
  match part with
  | none => queue = before
  | some (.inl newjob) => queue = before ++ [newjob]
  | some (.inr jobP) => ∃ id, jobP = .job id ∧ before = id :: queue ∧ queue ≠ []

theorem guard_of_onQueue {task : Task} (h : task.onQueue ≠ none) :
    task.guard = some .rwmutex := by
  cases task <;> first | rfl | exact absurd rfl h

theorem mem_queuePart (h : PlacesOk m place) (x : ℕ ⊕ Node) :
    queuePart m place = some x ↔ ∃ u, (place u).task.onQueue = some x := by
  constructor
  · intro hx
    obtain ⟨u, -, hu⟩ := Option.bind_eq_some_iff.1 hx
    exact ⟨u, hu⟩
  · rintro ⟨u, hu⟩
    refine Option.bind_eq_some_iff.2 ⟨u, (h.owner _ u).2 (h.guarded u _ ?_), hu⟩
    exact guard_of_onQueue (by simp [hu])

/-- A step that makes no update of the queue and posts none. -/
theorem queuePart_update (h : PlacesOk m place) (h' : PlacesOk m' (Function.update place t q'))
    (htask : q'.task.onQueue = (place t).task.onQueue) :
    queuePart m' (Function.update place t q') = queuePart m place := by
  refine Option.ext fun x => ?_
  rw [mem_queuePart h, mem_queuePart h']
  refine exists_congr fun u => ?_
  by_cases hu : u = t
  · rw [hu, Function.update_self, htask]
  · rw [Function.update_of_ne hu]

theorem queuePart_of_held (h : PlacesOk m place) (hheld : .rwmutex ∈ (place t).held) :
    queuePart m place = (place t).task.onQueue := by
  rw [queuePart, (h.owner _ t).2 hheld, Option.bind_some]

/-- The queue in steps and in atomic steps. -/
inductive QueueMirror (ids : List ℕ) (part : Option (ℕ ⊕ Node)) (tp tp' : Thpool J) : Prop
  | whole {queue before : List ℕ} (h : tp.Queue queue) (h' : tp'.Queue (before.map ids.idxOf))
      (hsub : ∀ id ∈ before, id ∈ ids) (hpart : QueueBefore part queue before)
  | broken (h : tp.Broken) (h' : tp'.Broken) (hpart : part = none)

theorem QueueMirror.congr {part : Option (ℕ ⊕ Node)} {tp tp' tp₁ tp₁' : Thpool J}
    (h : QueueMirror ids part tp tp') (hring : tp₁.ring = tp.ring ∧ tp₁.len = tp.len)
    (hring' : tp₁'.ring = tp'.ring ∧ tp₁'.len = tp'.len) : QueueMirror ids part tp₁ tp₁' := by
  cases h with
  | whole h h' hsub hpart =>
    exact .whole ⟨hring.1 ▸ h.ring, hring.2.trans h.len⟩
      ⟨hring'.1 ▸ h'.ring, hring'.2.trans h'.len⟩ hsub hpart
  | broken h h' hpart =>
    exact .broken ⟨hring.1 ▸ h.succ, hring.1 ▸ h.pred⟩ ⟨hring'.1 ▸ h'.succ, hring'.1 ▸ h'.pred⟩
      hpart

theorem jobqueueTake_eq {tp tp₁ : Thpool J} {jobP : Node} {post : Bool}
    (h : jobqueueTake tp = some (jobP, post, tp₁)) :
    tp₁ = { tp with ring := tp₁.ring, len := tp₁.len } ∧ (post = true → 2 ≤ tp.len) ∧
      (post = false → tp.len ≤ 1) := by
  obtain ⟨x, -, h⟩ := Option.bind_eq_some_iff.1 h
  obtain ⟨ring, -, h⟩ := Option.bind_eq_some_iff.1 h
  obtain ⟨-, hr⟩ := Prod.mk.inj (Option.some.inj h)
  obtain ⟨alive, working, ring₀, _ | _ | len, v, mem, nextJob⟩ := tp <;> cases hr <;> simp

/-- A pull of a job that leaves others. -/
theorem QueueMirror.pullPost {tp tp' tp₁ : Thpool J} {jobP : Node}
    (h : QueueMirror ids none tp tp') (htake : jobqueueTake tp = some (jobP, true, tp₁)) :
    QueueMirror ids (some (.inr jobP)) tp₁ tp' := by
  cases h with
  | broken hb => rw [hb.take] at htake; cases htake
  | @whole queue before hq h' hsub hpart =>
    obtain rfl : queue = before := hpart
    cases queue with
    | nil =>
      obtain ⟨tp₂, htake', -⟩ := hq.take_nil
      cases htake.symm.trans htake'
    | cons id queue =>
      obtain ⟨post, tp₂, htake', hq'⟩ := hq.take
      cases htake.symm.trans htake'
      refine .whole hq' h' hsub ⟨id, rfl, rfl, ?_⟩
      rintro rfl
      have hlen := (jobqueueTake_eq htake).2.1 rfl
      rw [hq.len] at hlen
      simp at hlen

/-- A pull of the only job, or of the head of the empty queue. -/
theorem QueueMirror.pull {tp tp' tp₁ : Thpool J} {jobP : Node}
    (h : QueueMirror ids none tp tp') (htake : jobqueueTake tp = some (jobP, false, tp₁)) :
    ∃ tp₁', thpoolJobqueuePull tp' = some (jobP.rename ids, tp₁') ∧
      QueueMirror ids none tp₁ tp₁' ∧ tp₁' = { tp' with ring := tp₁'.ring, len := tp₁'.len } ∧
      ∀ id, jobP = .job id → id ∈ ids := by
  cases h with
  | broken hb => rw [hb.take] at htake; cases htake
  | @whole queue before hq h' hsub hpart =>
    obtain rfl : queue = before := hpart
    cases queue with
    | nil =>
      obtain ⟨tp₂, htake', hb⟩ := hq.take_nil
      cases htake.symm.trans htake'
      obtain ⟨tp₁', htake₁, hb'⟩ := h'.take_nil
      refine ⟨tp₁', ?_, .broken hb hb' rfl, (jobqueueTake_eq htake₁).1, by simp⟩
      simp [thpoolJobqueuePull_eq_map, htake₁, Node.rename]
    | cons id queue =>
      obtain ⟨post, tp₂, htake', hq'⟩ := hq.take
      cases htake.symm.trans htake'
      have hlen := (jobqueueTake_eq htake).2.2 rfl
      rw [hq.len] at hlen
      obtain rfl : queue = [] :=
        List.length_eq_zero_iff.1 (Nat.le_zero.1 (Nat.le_of_succ_le_succ hlen))
      have hone : tp'.Queue (ids.idxOf id :: ([] : List ℕ).map ids.idxOf) := h'
      obtain ⟨post', tp₁', htake₁, hq₁⟩ := hone.take
      have hpost : post' = false := by
        by_contra hne
        have hlen' := (jobqueueTake_eq htake₁).2.1 (by simpa using hne)
        rw [h'.len] at hlen'
        simp at hlen'
      subst hpost
      refine ⟨tp₁', ?_, .whole hq' hq₁ (by simp) rfl, (jobqueueTake_eq htake₁).1, ?_⟩
      · simp [thpoolJobqueuePull_eq_map, htake₁, Node.rename]
      · rintro id' ⟨rfl⟩
        exact hsub _ (by simp)

/-- The post of a pull. -/
theorem QueueMirror.postTook {tp tp' : Thpool J} {jobP : Node}
    (h : QueueMirror ids (some (.inr jobP)) tp tp') :
    ∃ tp₁', thpoolJobqueuePull tp' = some (jobP.rename ids, tp₁') ∧
      QueueMirror ids none tp tp₁' ∧
      tp₁' = { tp' with ring := tp₁'.ring, len := tp₁'.len, v := 1 } ∧
      ∀ id, jobP = .job id → id ∈ ids := by
  cases h with
  | broken _ _ hpart => cases hpart
  | @whole queue before hq h' hsub hpart =>
    obtain ⟨id, rfl, rfl, hne⟩ := hpart
    obtain ⟨ring, hpull, hring⟩ := thpoolJobqueuePull_eq (l := (queue.map ids.idxOf).map .job)
      h'.ring (by simpa using h'.len)
    refine ⟨_, hpull, .whole hq ⟨hring, by simp⟩ (fun x hx => hsub x (by simp [hx])) rfl, ?_, ?_⟩
    · simp [hne]
    · rintro id' ⟨rfl⟩
      exact hsub _ (by simp)

/-- The update of a push. -/
theorem QueueMirror.push {tp tp' tp₁ : Thpool J} {id : ℕ} (h : QueueMirror ids none tp tp')
    (hid : id ∉ ids) (hput : jobqueuePut tp id = some tp₁) :
    QueueMirror ids (some (.inl id)) tp₁ tp' := by
  cases h with
  | broken hb => rw [hb.put] at hput; cases hput
  | @whole queue before hq h' hsub hpart =>
    obtain rfl : queue = before := hpart
    obtain ⟨tp₂, hput', hq'⟩ := hq.put fun hmem => hid (hsub id hmem)
    cases hput.symm.trans hput'
    exact .whole hq' h' hsub rfl

/-- The numbers of the jobs pushed before. -/
theorem map_idxOf_append {l : List ℕ} (hl : ∀ x ∈ l, x ∈ ids) (id : ℕ) :
    l.map (ids ++ [id]).idxOf = l.map ids.idxOf :=
  List.map_congr_left fun x hx => List.idxOf_append_of_mem (hl x hx)

theorem idxOf_append_self {id : ℕ} (hid : id ∉ ids) : (ids ++ [id]).idxOf id = ids.length := by
  rw [List.idxOf_append_of_notMem hid, List.idxOf_cons_self, Nat.add_zero]

/-- The post of a push. -/
theorem QueueMirror.postPut {tp tp' : Thpool J} {id : ℕ} (job : J)
    (h : QueueMirror ids (some (.inl id)) tp tp') (hid : id ∉ ids)
    (hnext : tp'.nextJob = ids.length) :
    ∃ tp₁', thpoolAddWork tp' job = some (ids.length, tp₁') ∧
      QueueMirror (ids ++ [id]) none tp tp₁' ∧
      tp₁' = { tp' with ring := tp₁'.ring, len := tp₁'.len, v := 1
                        mem := Function.update tp'.mem (.job ids.length) (some job)
                        nextJob := ids.length + 1 } := by
  cases h with
  | broken _ _ hpart => cases hpart
  | @whole queue before hq h' hsub hpart =>
    obtain rfl : queue = before ++ [id] := hpart
    have hnew : .job tp'.nextJob ∉ (before.map ids.idxOf).map Node.job := by
      rw [hnext]
      simp only [List.map_map, List.mem_map, Function.comp_apply, Node.job.injEq, not_exists,
        not_and]
      exact fun x hx => (List.idxOf_lt_length_of_mem (hsub x hx)).ne
    obtain ⟨ring, hadd, hring⟩ := thpoolAddWork_eq job h'.ring hnew
    rw [hnext] at hadd hring
    refine ⟨_, hadd, .whole hq ⟨?_, ?_⟩ ?_ rfl, rfl⟩
    · rw [List.map_append, map_idxOf_append hsub, List.map_singleton, idxOf_append_self hid]
      simpa using hring
    · simp [h'.len]
    · intro x hx
      rcases List.mem_append.1 hx with hx | hx
      · exact List.mem_append_left _ (hsub x hx)
      · exact List.mem_append_right _ hx

/-! ## The two pools -/

/-- The pool in atomic steps where the steps of the other one have taken it. -/
structure Mirrors (m : PoolMem n J) (place : Option (Fin n) → Place) (pool : Pool n J)
    (ids : List ℕ) : Prop where
  thread : ∀ w pc, (place (some w)).pc = .worker pc → pool.thread w = pc.rename ids
  alive : pool.tp.numThreadsAlive = m.tp.numThreadsAlive
  working : pool.tp.numThreadsWorking = m.tp.numThreadsWorking
  v : pool.tp.v = m.tp.v
  queue : QueueMirror ids (queuePart m place) m.tp pool.tp
  next : pool.tp.nextJob = ids.length
  mem : ∀ id ∈ ids, pool.tp.mem (.job (ids.idxOf id)) = m.tp.mem (.job id)

variable {pool pool' : Pool n J} {w : Fin n}

/-- A step that leaves the queue and the jobs alone. -/
theorem Mirrors.quiet (h : Mirrors m place pool ids)
    (hpart : queuePart m' (Function.update place t q') = queuePart m place)
    (htp : m'.tp.ring = m.tp.ring ∧ m'.tp.len = m.tp.len ∧ m'.tp.mem = m.tp.mem)
    (hpool : pool'.tp.ring = pool.tp.ring ∧ pool'.tp.len = pool.tp.len ∧
      pool'.tp.mem = pool.tp.mem ∧ pool'.tp.nextJob = pool.tp.nextJob)
    (hcount : pool'.tp.numThreadsAlive = m'.tp.numThreadsAlive ∧
      pool'.tp.numThreadsWorking = m'.tp.numThreadsWorking ∧ pool'.tp.v = m'.tp.v)
    (hthread : ∀ w pc, (Function.update place t q' (some w)).pc = .worker pc →
      pool'.thread w = pc.rename ids) : Mirrors m' (Function.update place t q') pool' ids where
  thread := hthread
  alive := hcount.1
  working := hcount.2.1
  v := hcount.2.2
  queue := by
    rw [hpart]
    exact h.queue.congr ⟨htp.1, htp.2.1⟩ ⟨hpool.1, hpool.2.1⟩
  next := hpool.2.2.2.trans h.next
  mem id hid := by
    rw [htp.2.2, hpool.2.2.1]
    exact h.mem id hid

/-- The place changes but not where it is in the code. -/
theorem Mirrors.thread_stay (h : Mirrors m place pool ids) (hpc : q'.pc = (place t).pc) (w : Fin n)
    (pc : ThreadPc) (hw : (Function.update place t q' (some w)).pc = .worker pc) :
    pool.thread w = pc.rename ids := by
  by_cases he : some w = t
  · subst he
    rw [Function.update_self, hpc] at hw
    exact h.thread w pc hw
  · rw [Function.update_of_ne he] at hw
    exact h.thread w pc hw

/-- A worker moves, and the pool in atomic steps moves it. -/
theorem Mirrors.thread_moved (h : Mirrors m place pool ids) {pc' : ThreadPc}
    (hpc : q'.pc = .worker pc') (tp : Thpool J) (u : Fin n) (pc : ThreadPc)
    (hu : (Function.update place (some w) q' (some u)).pc = .worker pc) :
    (pool.moved w (pc'.rename ids) tp).thread u = pc.rename ids := by
  by_cases he : u = w
  · subst he
    rw [Function.update_self, hpc] at hu
    obtain rfl : pc' = pc := by simpa using hu
    simp
  · rw [Function.update_of_ne (by simpa using he)] at hu
    rw [Pool.moved_thread, Function.update_of_ne he]
    exact h.thread u pc hu

/-- The caller moves, or nobody does. -/
theorem Mirrors.thread_caller (h : Mirrors m place pool ids) (u : Fin n) (pc : ThreadPc)
    (hu : (Function.update place none q' (some u)).pc = .worker pc) :
    pool.thread u = pc.rename ids := by
  rw [Function.update_of_ne (by simp)] at hu
  exact h.thread u pc hu

/-! ## What shows -/

/-- The job that a worker ends with a step of the code. -/
def ran (m : PoolThreads n J × DestroyLabel n J × PoolThreads n J) : List (Fin n × J) :=
  match m.2.1 with
  | .step (some w) .next =>
    match m.1.code (some w) with
    | .run jobP :: _ => ((m.1.mem.tp.mem jobP).map fun job => (w, job)).toList
    | _ => []
  | _ => []

/-- The job that a worker ends with an atomic step. -/
def lifeRan (m : (Bool × Life n J Empty) × (LifeLabel n J Empty ⊕ Bool) × (Bool × Life n J Empty)) :
    List (Fin n × J) :=
  match m.2.1 with
  | .inl (.thread w) =>
    match m.1.2.pool.thread w with
    | .run jobP => ((m.1.2.pool.tp.mem jobP).map fun job => (w, job)).toList
    | _ => []
  | _ => []

/-- From one state to another in one atomic step that shows the jobs, or in none. -/
def LifeSteps (k : Bool) (c : Life n J Empty) (k' : Bool) (c' : Life n J Empty)
    (jobs : List (Fin n × J)) : Prop :=
  jobs = [] ∧ k' = k ∧ c' = c ∨
    ∃ a, lifeStep k c a = some (k', c') ∧ lifeRan ((k, c), .inl a, (k', c')) = jobs

variable {k k' : Bool} {c c' : Life n J Empty}

theorem LifeSteps.refl (k : Bool) (c : Life n J Empty) : LifeSteps k c k c [] :=
  .inl ⟨rfl, rfl, rfl⟩

theorem LifeSteps.single {a : LifeLabel n J Empty} (h : lifeStep k c a = some (k', c')) :
    LifeSteps k c k' c' (lifeRan ((k, c), .inl a, (k', c'))) :=
  .inr ⟨a, h, rfl⟩

/-- The job that ends between two places. -/
def Place.finished (q q' : Place) : Option Node :=
  match q.pc, q'.pc with
  | .worker (.run jobP), .worker (.free jobP') => if jobP = jobP' then some jobP else none
  | _, _ => none

theorem Place.finished_eq_some {q q' : Place} {jobP : Node} :
    q.finished q' = some jobP ↔ q.Finishes q' jobP := by
  unfold finished Finishes
  split
  · next x y hq hq' =>
    rw [hq, hq']
    by_cases hxy : x = y
    · subst hxy
      simp
    · simp only [if_neg hxy, reduceCtorEq, PoolPc.worker.injEq, ThreadPc.run.injEq,
        ThreadPc.free.injEq, false_iff, not_and]
      exact fun hx hy => hxy (hx.trans hy.symm)
  · next hnot =>
    refine iff_of_false (by simp) ?_
    rintro ⟨hq, hq'⟩
    exact hnot jobP jobP hq hq'

/-- What shows of a step between two places. -/
def endedBy (t : Option (Fin n)) (m : PoolMem n J) (q q' : Place) : List (Fin n × J) :=
  match t, q.finished q' with
  | some w, some jobP => ((m.tp.mem jobP).map fun job => (w, job)).toList
  | _, _ => []

/-- The step shows what its places show. -/
theorem ran_eq_endedBy {s s' : PoolThreads n J} {choice : PoolChoice J} {i : PoolInstr}
    {rest : List PoolInstr} {q : Place} (hc : s.code t = i :: rest)
    (h : ∀ jobP, q.Finishes q' jobP ↔ i = .run jobP ∧ choice = .next) :
    ran (s, .step t choice, s') = endedBy t s.mem q q' := by
  cases t with
  | none => rfl
  | some w =>
    cases hf : q.finished q' with
    | some jobP =>
      obtain ⟨rfl, rfl⟩ := (h jobP).1 (Place.finished_eq_some.1 hf)
      simp [ran, endedBy, hc, hf]
    | none =>
      have hnot (jobP : Node) : ¬(i = .run jobP ∧ choice = .next) := fun hi => by
        cases hf.symm.trans (Place.finished_eq_some.2 ((h jobP).2 hi))
      have hshown : endedBy (some w) s.mem q q' = [] := by simp [endedBy, hf]
      rw [hshown]
      cases choice with
      | next =>
        cases i <;> first | exact (hnot _ ⟨rfl, rfl⟩).elim | simp [ran, hc]
      | addWork job | wait | timeout => rfl

/-! ## One step -/

/-- The pool in atomic steps goes on from `c` to where the other one is after a step of thread `t`
to `q'`. -/
def Followed (t : Option (Fin n)) (m : PoolMem n J) (place : Option (Fin n) → Place)
    (c : Life n J Empty) (m' : PoolMem n J) (q' : Place) : Prop :=
  ∃ c' ids', LifeSteps m.keepalive c m'.keepalive c' (endedBy t m (place t) q') ∧
    Named m' (Function.update place t q') ids' ∧
    Mirrors m' (Function.update place t q') c'.pool ids' ∧
    ∀ pc, (Function.update place t q' none).pc = .caller pc → c'.pc = pc.toLife n

/-- What the pools have in common before a step. -/
structure Paired (m : PoolMem n J) (place : Option (Fin n) → Place) (c : Life n J Empty)
    (ids : List ℕ) : Prop where
  ok : PlacesOk m place
  isCaller : ∀ u, (place u).pc.isCaller = u.isNone
  named : Named m place ids
  mirrors : Mirrors m place c.pool ids
  pc : ∀ pc, (place none).pc = .caller pc → c.pc = pc.toLife n

/-- Nothing is done above. -/
theorem Paired.stutter (h : Paired m place c ids) (hk : m'.keepalive = m.keepalive)
    (hpc : q'.pc = (place t).pc) (hN : Named m' (Function.update place t q') ids)
    (hM : Mirrors m' (Function.update place t q') c.pool ids) : Followed t m place c m' q' := by
  have hnone : endedBy t m (place t) q' = [] := by
    have hf : (place t).finished q' = none := by
      unfold Place.finished
      rw [hpc]
      split
      · next hq hq' => cases hq.symm.trans hq'
      · rfl
    unfold endedBy
    rw [hf]
    cases t <;> rfl
  refine ⟨c, ids, ?_, hN, hM, fun pc hpc' => h.pc pc ?_⟩
  · rw [hk, hnone]
    exact .refl _ _
  · by_cases ht : none = t
    · subst ht
      rwa [Function.update_self, hpc] at hpc'
    · rwa [Function.update_of_ne ht] at hpc'

theorem LifePc.runs_of_toLife {pc : CallerPc} (hpc : pc ≠ .freed) (w : Fin n) :
    (pc.toLife n).runs w = true := by
  cases pc <;> simp_all [CallerPc.toLife, LifePc.runs]

/-- Until the pool is freed its threads run. -/
theorem Paired.runs (h : Paired m place c ids) (hclears : ¬(place none).pc.Clears) (w : Fin n) :
    c.pc.runs w = true := by
  have hcaller := h.isCaller none
  cases hpc : (place none).pc with
  | worker pc => rw [hpc] at hcaller; cases hcaller
  | caller pc =>
    rw [h.pc pc hpc]
    refine LifePc.runs_of_toLife ?_ w
    rintro rfl
    exact hclears (.inr hpc)

/-- A worker takes an atomic step, of which the pool shows no job. -/
theorem Paired.worker (h : Paired m place c ids) {pc pc' : ThreadPc} {tp : Thpool J}
    (hq : (place (some w)).pc = .worker pc) (hq' : q'.pc = .worker pc')
    (hnot : ∀ jobP, pc ≠ .run jobP)
    (hstep : threadStep m.keepalive (pc.rename ids) c.pool.tp = some (pc'.rename ids, tp))
    (hclears : ¬(place none).pc.Clears) (hk : m'.keepalive = m.keepalive)
    (hN : Named m' (Function.update place (some w) q') ids)
    (hM : Mirrors m' (Function.update place (some w) q')
      (c.pool.moved w (pc'.rename ids) tp) ids) : Followed (some w) m place c m' q' := by
  have hthread := h.mirrors.thread w pc hq
  have hlife : lifeStep m.keepalive c (.thread w) =
      some (m'.keepalive, { c with pool := c.pool.moved w (pc'.rename ids) tp }) := by
    simp [lifeStep, h.runs hclears w, hthread, hstep, hk]
  have hf : (place (some w)).finished q' = none := by
    unfold Place.finished
    rw [hq, hq']
    cases pc <;> first | rfl | exact absurd rfl (hnot _)
  refine ⟨{ c with pool := c.pool.moved w (pc'.rename ids) tp }, ids, ?_, hN, hM,
    fun pc hpc => h.pc pc ?_⟩
  · have hsingle := LifeSteps.single hlife
    have hran : lifeRan ((m.keepalive, c), .inl (.thread w), (m'.keepalive,
        { c with pool := c.pool.moved w (pc'.rename ids) tp })) =
          endedBy (some w) m (place (some w)) q' := by
      simp only [lifeRan, hthread, endedBy, hf]
      cases pc <;> first | rfl | exact absurd rfl (hnot _)
    rwa [hran] at hsingle
  · rwa [Function.update_of_ne (by simp)] at hpc

/-- The caller takes an atomic step. -/
theorem followed_caller (hstep : callStep m.keepalive c = some (m'.keepalive, c'))
    (hN : Named m' (Function.update place none q') ids)
    (hM : Mirrors m' (Function.update place none q') c'.pool ids)
    (hpc : ∀ pc, q'.pc = .caller pc → c'.pc = pc.toLife n) : Followed none m place c m' q' := by
  refine ⟨c', ids, LifeSteps.single (a := .call) hstep, hN, hM, fun pc hpc' => hpc pc ?_⟩
  rwa [Function.update_self] at hpc'

/-- A step of a worker between the tests, the counts and the semaphore, with what it writes. -/
theorem Paired.workerQuiet (h : Paired m place c ids)
    (hok : PlacesOk m' (Function.update place (some w) q')) {pc pc' : ThreadPc} {tp : Thpool J}
    (hq : (place (some w)).pc = .worker pc) (hq' : q'.pc = .worker pc')
    (htask : (place (some w)).task.onQueue = none ∧ q'.task = .idle)
    (hnot : ∀ jobP, pc ≠ .run jobP ∧ pc' ≠ .run jobP ∧ pc' ≠ .free jobP)
    (hstep : threadStep m.keepalive (pc.rename ids) c.pool.tp = some (pc'.rename ids, tp))
    (hclears : ¬(place none).pc.Clears) (hk : m'.keepalive = m.keepalive)
    (htp : m'.tp.ring = m.tp.ring ∧ m'.tp.len = m.tp.len ∧ m'.tp.mem = m.tp.mem ∧
      m'.tp.nextJob = m.tp.nextJob)
    (htp' : tp.ring = c.pool.tp.ring ∧ tp.len = c.pool.tp.len ∧ tp.mem = c.pool.tp.mem ∧
      tp.nextJob = c.pool.tp.nextJob)
    (hcount : tp.numThreadsAlive = m'.tp.numThreadsAlive ∧
      tp.numThreadsWorking = m'.tp.numThreadsWorking ∧ tp.v = m'.tp.v) :
    Followed (some w) m place c m' q' := by
  refine h.worker hq hq' (fun jobP => (hnot jobP).1) hstep hclears hk ?_ ?_
  · refine h.named.update htp.2.2.2 (fun id _ => by rw [htp.2.2.1]) (.inl (by rw [htask.2]; rfl)) ?_
    rintro id (hid | hid) <;> rw [hq'] at hid <;> cases hid
    · exact absurd rfl (hnot (.job id)).2.1
    · exact absurd rfl (hnot (.job id)).2.2
  · exact h.mirrors.quiet (queuePart_update h.ok hok (by rw [htask.1, htask.2]; rfl))
      ⟨htp.1, htp.2.1, htp.2.2.1⟩ htp' hcount (h.mirrors.thread_moved hq' tp)

/-- The thread at a worker's place is a worker. -/
theorem Paired.exists_worker (h : Paired m place c ids) {pc : ThreadPc}
    (hq : (place t).pc = .worker pc) : ∃ w, t = some w := by
  have hcaller := h.isCaller t
  cases t with
  | none => rw [hq] at hcaller; cases hcaller
  | some w => exact ⟨w, rfl⟩

theorem Paired.eq_caller (h : Paired m place c ids) {pc : CallerPc}
    (hq : (place t).pc = .caller pc) : t = none := by
  have hcaller := h.isCaller t
  cases t with
  | none => rfl
  | some w => rw [hq] at hcaller; cases hcaller

/-- A step that does nothing but with a mutex, or in a variable of the caller. -/
theorem Paired.stutterQuiet (h : Paired m place c ids)
    (hok : PlacesOk m' (Function.update place t q')) (hk : m'.keepalive = m.keepalive)
    (htp : m'.tp = m.tp) (hpc : q'.pc = (place t).pc)
    (htask : q'.task.onQueue = (place t).task.onQueue ∧ q'.task.newjob = (place t).task.newjob) :
    Followed t m place c m' q' := by
  refine h.stutter hk hpc ?_ ?_
  · refine h.named.update (by rw [htp]) (by simp [htp]) (.inr htask.2) fun id hid => ?_
    refine h.named.hand t id ?_
    simpa [Place.Has, hpc] using hid
  · refine h.mirrors.quiet (queuePart_update h.ok hok htask.1) (by simp [htp]) ⟨rfl, rfl, rfl, rfl⟩
      ?_ (h.mirrors.thread_stay hpc)
    rw [htp]
    exact ⟨h.mirrors.alive, h.mirrors.working, h.mirrors.v⟩

/-- A step of the caller that is an atomic one, with what it writes. -/
theorem Paired.callerQuiet (h : Paired m place c ids)
    (hok : PlacesOk m' (Function.update place none q')) {pc : CallerPc}
    (hq' : q'.pc = .caller pc) (htask : (place none).task = .idle ∧ q'.task = .idle)
    (hstep : callStep m.keepalive c = some (m'.keepalive, c')) (hpc : c'.pc = pc.toLife n)
    (htp : m'.tp.ring = m.tp.ring ∧ m'.tp.len = m.tp.len ∧ m'.tp.mem = m.tp.mem ∧
      m'.tp.nextJob = m.tp.nextJob)
    (hpool : c'.pool.tp.ring = c.pool.tp.ring ∧ c'.pool.tp.len = c.pool.tp.len ∧
      c'.pool.tp.mem = c.pool.tp.mem ∧ c'.pool.tp.nextJob = c.pool.tp.nextJob)
    (hcount : c'.pool.tp.numThreadsAlive = m'.tp.numThreadsAlive ∧
      c'.pool.tp.numThreadsWorking = m'.tp.numThreadsWorking ∧ c'.pool.tp.v = m'.tp.v)
    (hthread : c'.pool.thread = c.pool.thread) : Followed none m place c m' q' := by
  have hN : Named m' (Function.update place none q') ids := by
    refine h.named.update htp.2.2.2 (by simp [htp]) (.inl (by rw [htask.2]; rfl)) fun id hid => ?_
    simp [Place.Has, hq'] at hid
  have hM : Mirrors m' (Function.update place none q') c'.pool ids := by
    refine h.mirrors.quiet (queuePart_update h.ok hok (by rw [htask.1, htask.2]))
      ⟨htp.1, htp.2.1, htp.2.2.1⟩ hpool hcount ?_
    rw [hthread]
    exact h.mirrors.thread_caller
  refine followed_caller hstep hN hM fun pc' hpc' => ?_
  rw [hq'] at hpc'
  cases hpc'
  exact hpc

/-- A worker ends a job. -/
theorem Paired.run (h : Paired m place c ids)
    (hok : PlacesOk m (Function.update place (some w) q')) {jobP : Node}
    (hq : (place (some w)).pc = .worker (.run jobP)) (hq' : q'.pc = .worker (.free jobP))
    (htask : (place (some w)).task = .idle ∧ q'.task = .idle) (hjob : (m.tp.mem jobP).isSome)
    (hhead : m.tp.mem .jobHead = none) (hclears : ¬(place none).pc.Clears) :
    Followed (some w) m place c m q' := by
  obtain ⟨id, rfl⟩ : ∃ id, jobP = .job id := by
    cases jobP with
    | jobHead => simp [hhead] at hjob
    | job id => exact ⟨id, rfl⟩
  have hthread := h.mirrors.thread w _ hq
  have hid := h.named.hand (some w) id (.inl hq)
  have hmem := h.mirrors.mem id hid
  have hlife : lifeStep m.keepalive c (.thread w) = some (m.keepalive,
      { c with pool := c.pool.moved w ((ThreadPc.free (.job id)).rename ids) c.pool.tp }) := by
    have hsome : (c.pool.tp.mem (.job (ids.idxOf id))).isSome = true := by rw [hmem]; exact hjob
    simp [lifeStep, h.runs hclears w, hthread, threadStep, ThreadPc.rename, Node.rename, hsome]
  refine ⟨{ c with pool := c.pool.moved w ((ThreadPc.free (.job id)).rename ids) c.pool.tp }, ids,
    ?_, ?_, ?_, fun pc hpc => h.pc pc ?_⟩
  · have hsingle := LifeSteps.single hlife
    have hran : lifeRan ((m.keepalive, c), .inl (.thread w), (m.keepalive,
        { c with pool := c.pool.moved w ((ThreadPc.free (.job id)).rename ids) c.pool.tp })) =
          endedBy (some w) m (place (some w)) q' := by
      have hf : (place (some w)).finished q' = some (.job id) :=
        Place.finished_eq_some.2 ⟨hq, hq'⟩
      simp only [lifeRan, hthread, endedBy, hf, ThreadPc.rename, Node.rename, hmem]
    rwa [hran] at hsingle
  · refine h.named.update rfl (fun _ _ => rfl) (.inl (by rw [htask.2]; rfl)) fun id' hid' => ?_
    rcases hid' with hid' | hid' <;> rw [hq'] at hid' <;> cases hid'
    exact hid
  · exact h.mirrors.quiet (queuePart_update h.ok hok (by rw [htask.1, htask.2])) ⟨rfl, rfl, rfl⟩
      ⟨rfl, rfl, rfl, rfl⟩ ⟨h.mirrors.alive, h.mirrors.working, h.mirrors.v⟩
      (h.mirrors.thread_moved hq' _)
  · rwa [Function.update_of_ne (by simp)] at hpc

/-- A worker frees the job it has ended. -/
theorem Paired.freeJob (h : Paired m place c ids) {id : ℕ} {freedJobs : List ℕ}
    (hok : PlacesOk { m with
        tp := { m.tp with mem := Function.update m.tp.mem (.job id) none }, freedJobs := freedJobs }
      (Function.update place (some w) ⟨.worker .uncount, [], .idle⟩))
    (hq : place (some w) = ⟨.worker (.free (.job id)), [], .idle⟩)
    (hclears : ¬(place none).pc.Clears) :
    Followed (some w) m place c { m with
        tp := { m.tp with mem := Function.update m.tp.mem (.job id) none }, freedJobs := freedJobs }
      ⟨.worker .uncount, [], .idle⟩ := by
  have hid := h.named.hand (some w) id (.inr (by rw [hq]))
  refine h.worker (congrArg Place.pc hq) rfl (by simp) rfl hclears rfl ?_ ?_
  · refine h.named.update rfl (fun id' hid' => ?_) (.inl rfl) (by simp [Place.Has])
    refine Function.update_of_ne ?_ _ _
    rintro ⟨rfl⟩
    exact hid' hid
  · refine
      { thread := h.mirrors.thread_moved rfl _
        alive := h.mirrors.alive
        working := h.mirrors.working
        v := h.mirrors.v
        queue := ?_
        next := h.mirrors.next
        mem := fun id' hid' => ?_ }
    · rw [queuePart_update h.ok hok (by rw [hq])]
      exact h.mirrors.queue.congr ⟨rfl, rfl⟩ ⟨rfl, rfl⟩
    · have hmem := h.mirrors.mem id' hid'
      by_cases he : id' = id
      · subst he
        simp [Node.rename]
      · have hne : ids.idxOf id' ≠ ids.idxOf id := fun hi => he ((List.idxOf_inj hid').1 hi)
        simpa [Node.rename, he, hne] using hmem

/-- A worker or the client allocates a job. -/
theorem Paired.newJob (h : Paired m place c ids) {pc : PoolPc} (job : J)
    (hok : PlacesOk (m.newJob job) (Function.update place t ⟨pc, [], .adding m.tp.nextJob⟩))
    (hq : place t = ⟨pc, [], .idle⟩) :
    Followed t m place c (m.newJob job) ⟨pc, [], .adding m.tp.nextJob⟩ := by
  refine h.stutter rfl (by rw [hq]) (h.named.newJob job (by rw [hq])) ?_
  refine
    { thread := h.mirrors.thread_stay (by rw [hq])
      alive := h.mirrors.alive
      working := h.mirrors.working
      v := h.mirrors.v
      queue := ?_
      next := h.mirrors.next
      mem := fun id hid => ?_ }
  · rw [queuePart_update h.ok hok (by rw [hq]; rfl)]
    exact h.mirrors.queue.congr ⟨rfl, rfl⟩ ⟨rfl, rfl⟩
  · have hne : Node.job id ≠ .job m.tp.nextJob := by simpa using (h.named.lt id hid).ne
    rw [h.mirrors.mem id hid]
    exact (Function.update_of_ne hne _ _).symm

/-- A job is on the ring, and not posted yet. -/
theorem Paired.push (h : Paired m place c ids) {pc : PoolPc} {id : ℕ} {tp : Thpool J}
    (hok : PlacesOk { m with tp := tp } (Function.update place t ⟨pc, [.rwmutex], .put id⟩))
    (hq : place t = ⟨pc, [.rwmutex], .adding id⟩) (hr : jobqueuePut m.tp id = some tp) :
    Followed t m place c { m with tp := tp } ⟨pc, [.rwmutex], .put id⟩ := by
  obtain ⟨halive, hmem, hnext⟩ := jobqueuePut_frame hr
  obtain ⟨hv, hworking⟩ := jobqueuePut_v hr
  have hid := (h.named.adds t id (by rw [hq]; rfl)).1
  refine h.stutter rfl (by rw [hq]) ?_ ?_
  · refine h.named.update hnext (by simp [hmem]) (.inr (by rw [hq]; rfl)) fun id' hid' => ?_
    refine h.named.hand t id' ?_
    simpa [Place.Has, hq] using hid'
  · refine
      { thread := h.mirrors.thread_stay (by rw [hq])
        alive := h.mirrors.alive.trans halive.symm
        working := h.mirrors.working.trans hworking.symm
        v := h.mirrors.v.trans hv.symm
        queue := ?_
        next := h.mirrors.next
        mem := fun id' hid' => (h.mirrors.mem id' hid').trans (by rw [hmem]) }
    have hbefore : queuePart m place = none := by
      rw [queuePart_of_held h.ok (t := t) (by simp [hq]), hq]
      rfl
    have hafter : queuePart { m with tp := tp }
        (Function.update place t ⟨pc, [.rwmutex], .put id⟩) = some (.inl id) := by
      rw [queuePart_of_held hok (t := t) (by simp)]
      simp [Task.onQueue]
    have hqueue := h.mirrors.queue
    rw [hbefore] at hqueue
    rw [hafter]
    exact hqueue.push hid hr

/-- A worker pulls the only job, or the head of the empty queue. -/
theorem Paired.pull (h : Paired m place c ids) {jobP : Node} {tp : Thpool J}
    (hok : PlacesOk { m with tp := tp }
      (Function.update place (some w) ⟨.worker (.run jobP), [.rwmutex], .idle⟩))
    (hq : place (some w) = ⟨.worker .pull, [.rwmutex], .idle⟩)
    (hr : jobqueueTake m.tp = some (jobP, false, tp)) (hclears : ¬(place none).pc.Clears) :
    Followed (some w) m place c { m with tp := tp } ⟨.worker (.run jobP), [.rwmutex], .idle⟩ := by
  obtain ⟨halive, hmem, hnext⟩ := jobqueueTake_frame hr
  obtain ⟨hv, hworking⟩ := jobqueueTake_v hr
  have hqueue := h.mirrors.queue
  rw [queuePart_of_held h.ok (t := some w) (by simp [hq]), hq] at hqueue
  obtain ⟨tp₁, hpull, hqueue', heq, hids⟩ := QueueMirror.pull hqueue hr
  have hstep : threadStep m.keepalive (ThreadPc.pull.rename ids) c.pool.tp =
      some ((ThreadPc.run jobP).rename ids, tp₁) := by
    simp [threadStep, ThreadPc.rename, hpull]
  refine h.worker (congrArg Place.pc hq) rfl (by simp) hstep hclears rfl ?_ ?_
  · refine h.named.update hnext (by simp [hmem]) (.inl rfl) fun id hid => hids id ?_
    simpa [Place.Has] using hid
  · refine
      { thread := h.mirrors.thread_moved rfl _
        alive := ?_
        working := ?_
        v := ?_
        queue := ?_
        next := ?_
        mem := fun id hid => ?_ }
    · rw [Pool.moved_tp, heq]
      exact h.mirrors.alive.trans halive.symm
    · rw [Pool.moved_tp, heq]
      exact h.mirrors.working.trans hworking.symm
    · rw [Pool.moved_tp, heq]
      exact h.mirrors.v.trans hv.symm
    · rw [queuePart_of_held hok (t := some w) (by simp), Function.update_self]
      exact hqueue'
    · rw [Pool.moved_tp, heq]
      exact h.mirrors.next
    · rw [Pool.moved_tp, heq, hmem]
      exact h.mirrors.mem id hid

/-- A worker detaches one of several jobs. -/
theorem Paired.pullPost (h : Paired m place c ids) {jobP : Node} {tp : Thpool J}
    (hok : PlacesOk { m with tp := tp }
      (Function.update place (some w) ⟨.worker .pull, [.rwmutex], .took jobP⟩))
    (hq : place (some w) = ⟨.worker .pull, [.rwmutex], .idle⟩)
    (hr : jobqueueTake m.tp = some (jobP, true, tp)) :
    Followed (some w) m place c { m with tp := tp } ⟨.worker .pull, [.rwmutex], .took jobP⟩ := by
  obtain ⟨halive, hmem, hnext⟩ := jobqueueTake_frame hr
  obtain ⟨hv, hworking⟩ := jobqueueTake_v hr
  refine h.stutter rfl (by rw [hq]) ?_ ?_
  · exact h.named.update hnext (by simp [hmem]) (.inl rfl) (by simp [Place.Has])
  · refine
      { thread := h.mirrors.thread_stay (by rw [hq])
        alive := h.mirrors.alive.trans halive.symm
        working := h.mirrors.working.trans hworking.symm
        v := h.mirrors.v.trans hv.symm
        queue := ?_
        next := h.mirrors.next
        mem := fun id hid => (h.mirrors.mem id hid).trans (by rw [hmem]) }
    have hqueue := h.mirrors.queue
    rw [queuePart_of_held h.ok (t := some w) (by simp [hq]), hq] at hqueue
    rw [queuePart_of_held hok (t := some w) (by simp), Function.update_self]
    exact hqueue.pullPost hr

/-- The post of a pull, where it takes effect. -/
theorem Paired.postTook (h : Paired m place c ids) {jobP : Node}
    (hok : PlacesOk { m with tp := { m.tp with v := 1 } }
      (Function.update place (some w) ⟨.worker (.run jobP), [.semMutex, .rwmutex], .idle⟩))
    (hq : place (some w) = ⟨.worker .pull, [.semMutex, .rwmutex], .took jobP⟩)
    (hclears : ¬(place none).pc.Clears) :
    Followed (some w) m place c { m with tp := { m.tp with v := 1 } }
      ⟨.worker (.run jobP), [.semMutex, .rwmutex], .idle⟩ := by
  have hqueue := h.mirrors.queue
  rw [queuePart_of_held h.ok (t := some w) (by simp [hq]), hq] at hqueue
  obtain ⟨tp₁, hpull, hqueue', heq, hids⟩ := QueueMirror.postTook hqueue
  have hstep : threadStep m.keepalive (ThreadPc.pull.rename ids) c.pool.tp =
      some ((ThreadPc.run jobP).rename ids, tp₁) := by
    simp [threadStep, ThreadPc.rename, hpull]
  refine h.worker (congrArg Place.pc hq) rfl (by simp) hstep hclears rfl ?_ ?_
  · refine h.named.update rfl (fun _ _ => rfl) (.inl rfl) fun id hid => hids id ?_
    simpa [Place.Has] using hid
  · refine
      { thread := h.mirrors.thread_moved rfl _
        alive := ?_
        working := ?_
        v := ?_
        queue := ?_
        next := ?_
        mem := fun id hid => ?_ }
    · rw [Pool.moved_tp, heq]
      exact h.mirrors.alive
    · rw [Pool.moved_tp, heq]
      exact h.mirrors.working
    · rw [Pool.moved_tp, heq]
    · rw [queuePart_of_held hok (t := some w) (by simp), Function.update_self]
      exact hqueue'.congr ⟨rfl, rfl⟩ ⟨rfl, rfl⟩
    · rw [Pool.moved_tp, heq]
      exact h.mirrors.next
    · rw [Pool.moved_tp, heq]
      exact h.mirrors.mem id hid

/-- The numbers of the jobs in hand stay. -/
theorem ThreadPc.rename_append {pc : ThreadPc} {id : ℕ}
    (h : ∀ x, pc = .run (.job x) ∨ pc = .free (.job x) → x ∈ ids) :
    pc.rename (ids ++ [id]) = pc.rename ids := by
  cases pc with
  | run jobP | free jobP =>
    cases jobP with
    | jobHead => rfl
    | job x => simp [rename, Node.rename, List.idxOf_append_of_mem (h x (by simp))]
  | start | loop | wait | check | count | pull | uncount | leave | exited => rfl

/-- The post of a push, where the job is added. -/
theorem Paired.postPut (h : Paired m place c ids) {pc : PoolPc} {id : ℕ}
    (hok : PlacesOk { m with tp := { m.tp with v := 1 } }
      (Function.update place t ⟨pc, [.semMutex, .rwmutex], .idle⟩))
    (hq : place t = ⟨pc, [.semMutex, .rwmutex], .put id⟩) (hknown : c.pc.known = true) :
    Followed t m place c { m with tp := { m.tp with v := 1 } }
      ⟨pc, [.semMutex, .rwmutex], .idle⟩ := by
  have hqueue := h.mirrors.queue
  rw [queuePart_of_held h.ok (t := t) (by simp [hq]), hq] at hqueue
  obtain ⟨hid, -, hsome⟩ := h.named.adds t id (by rw [hq]; rfl)
  obtain ⟨job, hjob⟩ := Option.isSome_iff_exists.1 hsome
  obtain ⟨tp₁, hadd, hqueue', heq⟩ := QueueMirror.postPut job hqueue hid h.mirrors.next
  let pool' : Pool n J :=
    { c.pool with tp := tp₁, pushed := c.pool.pushed ++ [ids.length] }
  have hlife : lifeStep m.keepalive c (.addWork job) =
      some (m.keepalive, { c with pool := pool' }) := by
    simp [lifeStep, hknown, poolStep, hadd, pool']
  have hplace : (Function.update place t ⟨pc, [.semMutex, .rwmutex], .idle⟩ none).pc =
      (place none).pc := by
    by_cases ht : none = t
    · subst ht
      rw [Function.update_self, hq]
    · rw [Function.update_of_ne ht]
  refine ⟨{ c with pool := pool' }, ids ++ [id], ?_, ?_, ?_, fun pc hpc => h.pc pc ?_⟩
  · have hnone : endedBy t m (place t) ⟨pc, [.semMutex, .rwmutex], .idle⟩ = [] := by
      rw [hq]
      unfold endedBy Place.finished
      cases t with
      | none => rfl
      | some w =>
        cases pc with
        | caller pc => rfl
        | worker pc => cases pc <;> rfl
    rw [hnone]
    exact .single hlife
  · exact h.named.postPut (by rw [hq]) (by rw [hq]) ⟨rfl, rfl⟩
  · refine
      { thread := fun w pc' hw => ?_
        alive := ?_
        working := ?_
        v := ?_
        queue := ?_
        next := ?_
        mem := fun x hx => ?_ }
    · rw [ThreadPc.rename_append fun x hx => ?_]
      · exact h.mirrors.thread_stay (by rw [hq]) w pc' hw
      · refine h.named.hand (some w) x ?_
        have hw' : (place (some w)).pc = .worker pc' := by
          by_cases ht : some w = t
          · subst ht
            rw [Function.update_self] at hw
            rw [hq]
            exact hw
          · rwa [Function.update_of_ne ht] at hw
        rcases hx with rfl | rfl
        · exact .inl hw'
        · exact .inr hw'
    · change tp₁.numThreadsAlive = m.tp.numThreadsAlive
      rw [heq]
      exact h.mirrors.alive
    · change tp₁.numThreadsWorking = m.tp.numThreadsWorking
      rw [heq]
      exact h.mirrors.working
    · change tp₁.v = 1
      rw [heq]
    · rw [queuePart_of_held hok (t := t) (by simp), Function.update_self]
      exact hqueue'.congr ⟨rfl, rfl⟩ ⟨rfl, rfl⟩
    · change tp₁.nextJob = (ids ++ [id]).length
      rw [heq, List.length_append, List.length_singleton]
    · have hmem : tp₁.mem = Function.update c.pool.tp.mem (.job ids.length) (some job) := by
        rw [heq]
      change tp₁.mem (.job ((ids ++ [id]).idxOf x)) = m.tp.mem (.job x)
      rw [hmem]
      rcases List.mem_append.1 hx with hx | hx
      · have hlt : ids.idxOf x < ids.length := List.idxOf_lt_length_of_mem hx
        have hne : Node.job (ids.idxOf x) ≠ .job ids.length := by simpa using hlt.ne
        rw [List.idxOf_append_of_mem hx, Function.update_of_ne hne]
        exact h.mirrors.mem x hx
      · obtain rfl := List.mem_singleton.1 hx
        rw [idxOf_append_self hid, Function.update_self]
        exact hjob.symm
  · rwa [hplace] at hpc

/-- Where jobs can be added the pool is known. -/
theorem Paired.known (h : Paired m place c ids) (hclears : ¬(place none).pc.Clears)
    (hmaking : (place none).pc ≠ .caller .making) : c.pc.known = true := by
  have hcaller := h.isCaller none
  cases hpc : (place none).pc with
  | worker pc => rw [hpc] at hcaller; cases hcaller
  | caller pc =>
    rw [h.pc pc hpc]
    rw [hpc] at hclears hmaking
    cases pc <;> simp_all [CallerPc.toLife, LifePc.known, PoolPc.Clears]

/-- Before the queue is cleared the atomic steps follow every step. -/
theorem Paired.move (h : Paired m place c ids) (hmove : PoolMove t m (place t) m' q')
    (hok : PlacesOk m' (Function.update place t q')) (hhead : m.tp.mem .jobHead = none)
    (hclears : ¬(place none).pc.Clears) (hclears' : ¬(Function.update place t q' none).pc.Clears)
    (hmaking : (place none).pc = .caller .making → ∀ u, (place u).task = .idle) :
    Followed t m place c m' q' := by
  generalize hq : place t = q at hmove
  cases hmove
  case read =>
    refine h.stutter rfl (by rw [hq]) ?_ ?_ <;> rw [← hq, Function.update_eq_self]
    · exact h.named
    · exact h.mirrors
  case lock | unlock | sleep | readTotal =>
    exact h.stutterQuiet hok rfl rfl (by rw [hq]) (by rw [hq]; exact ⟨rfl, rfl⟩)
  case woken =>
    exact h.stutterQuiet hok rfl rfl (by rw [hq]) (by rw [hq]; exact ⟨rfl, rfl⟩)
  case aliveInc | aliveDec =>
    obtain ⟨w, rfl⟩ := h.exists_worker (congrArg Place.pc hq)
    exact h.workerQuiet hok (congrArg Place.pc hq) rfl (by rw [hq]; exact ⟨rfl, rfl⟩) (by simp)
      rfl hclears rfl ⟨rfl, rfl, rfl, rfl⟩ ⟨rfl, rfl, rfl, rfl⟩
      ⟨by simp [h.mirrors.alive], h.mirrors.working, h.mirrors.v⟩
  case workingInc | workingDec =>
    obtain ⟨w, rfl⟩ := h.exists_worker (congrArg Place.pc hq)
    exact h.workerQuiet hok (congrArg Place.pc hq) rfl (by rw [hq]; exact ⟨rfl, rfl⟩) (by simp)
      rfl hclears rfl ⟨rfl, rfl, rfl, rfl⟩ ⟨rfl, rfl, rfl, rfl⟩
      ⟨h.mirrors.alive, by simp [h.mirrors.working], h.mirrors.v⟩
  case loop | check =>
    obtain ⟨w, rfl⟩ := h.exists_worker (congrArg Place.pc hq)
    refine h.workerQuiet hok (congrArg Place.pc hq) rfl (by rw [hq]; exact ⟨rfl, rfl⟩) ?_ ?_
      hclears rfl ⟨rfl, rfl, rfl, rfl⟩ ⟨rfl, rfl, rfl, rfl⟩
      ⟨h.mirrors.alive, h.mirrors.working, h.mirrors.v⟩
    · intro jobP
      split <;> simp
    · simp only [ThreadPc.rename, threadStep]
      split <;> rfl
  case take =>
    obtain ⟨w, rfl⟩ := h.exists_worker (congrArg Place.pc hq)
    have hv : c.pool.tp.v = 1 := h.mirrors.v.trans (h.ok.woken _ (by rw [hq]))
    have hstep : threadStep m.keepalive (ThreadPc.wait.rename ids) c.pool.tp =
        some (ThreadPc.check.rename ids, { c.pool.tp with v := 0 }) := by
      simp [threadStep, ThreadPc.rename, thpoolBsemWait, hv]
    exact h.workerQuiet hok (congrArg Place.pc hq) rfl (by rw [hq]; exact ⟨rfl, rfl⟩) (by simp)
      hstep hclears rfl ⟨rfl, rfl, rfl, rfl⟩ ⟨rfl, rfl, rfl, rfl⟩
      ⟨h.mirrors.alive, h.mirrors.working, rfl⟩
  case pull jobP tp hr =>
    obtain ⟨w, rfl⟩ := h.exists_worker (congrArg Place.pc hq)
    exact h.pull hok hq hr hclears
  case pullPost jobP tp hr =>
    obtain ⟨w, rfl⟩ := h.exists_worker (congrArg Place.pc hq)
    exact h.pullPost hok hq hr
  case postTook jobP =>
    obtain ⟨w, rfl⟩ := h.exists_worker (congrArg Place.pc hq)
    exact h.postTook hok hq hclears
  case run jobP hjob =>
    obtain ⟨w, rfl⟩ := h.exists_worker (congrArg Place.pc hq)
    exact h.run hok (congrArg Place.pc hq) rfl (by rw [hq]; exact ⟨rfl, rfl⟩) hjob hhead hclears
  case freeJob id =>
    obtain ⟨w, rfl⟩ := h.exists_worker (congrArg Place.pc hq)
    exact h.freeJob hok hq hclears
  case newJob pc job hpc => exact h.newJob job hok hq
  case push pc id tp hr => exact h.push hok hq hr
  case postPut pc id =>
    refine h.postPut hok hq (h.known hclears fun hpc => ?_)
    have htask := hmaking hpc t
    rw [hq] at htask
    cases htask
  case made hn =>
    obtain rfl := h.eq_caller (congrArg Place.pc hq)
    have hpc := h.pc .making (congrArg Place.pc hq)
    have halive := h.mirrors.alive.trans hn
    have hstep : callStep m.keepalive c = some (m.keepalive, { c with pc := .live }) := by
      simp [callStep, hpc, CallerPc.toLife, halive]
    exact h.callerQuiet hok rfl (by rw [hq]; exact ⟨rfl, rfl⟩) hstep rfl ⟨rfl, rfl, rfl, rfl⟩
      ⟨rfl, rfl, rfl, rfl⟩ ⟨h.mirrors.alive, h.mirrors.working, h.mirrors.v⟩ rfl
  case clearKeepalive =>
    obtain rfl := h.eq_caller (congrArg Place.pc hq)
    have hpc := h.pc .live (congrArg Place.pc hq)
    have hstep : callStep m.keepalive c = some (false, { c with pc := .poll }) := by
      simp [callStep, hpc, CallerPc.toLife]
    exact h.callerQuiet hok rfl (by rw [hq]; exact ⟨rfl, rfl⟩) hstep rfl ⟨rfl, rfl, rfl, rfl⟩
      ⟨rfl, rfl, rfl, rfl⟩ ⟨h.mirrors.alive, h.mirrors.working, h.mirrors.v⟩ rfl
  case poll hn =>
    obtain rfl := h.eq_caller (congrArg Place.pc hq)
    have hpc := h.pc .poll (congrArg Place.pc hq)
    have halive : c.pool.tp.numThreadsAlive ≠ 0 := h.mirrors.alive ▸ hn
    have hstep : callStep m.keepalive c = some (m.keepalive, { c with pc := .post }) := by
      simp [callStep, hpc, CallerPc.toLife, halive]
    exact h.callerQuiet hok rfl (by rw [hq]; exact ⟨rfl, rfl⟩) hstep rfl ⟨rfl, rfl, rfl, rfl⟩
      ⟨rfl, rfl, rfl, rfl⟩ ⟨h.mirrors.alive, h.mirrors.working, h.mirrors.v⟩ rfl
  case postAll =>
    obtain rfl := h.eq_caller (congrArg Place.pc hq)
    have hpc := h.pc .post (congrArg Place.pc hq)
    have hstep : callStep m.keepalive c = some (m.keepalive,
        { c with pc := .poll, pool := { c.pool with tp := thpoolBsemPostAll c.pool.tp } }) := by
      simp [callStep, hpc, CallerPc.toLife]
    exact h.callerQuiet hok rfl (by rw [hq]; exact ⟨rfl, rfl⟩) hstep rfl ⟨rfl, rfl, rfl, rfl⟩
      ⟨rfl, rfl, rfl, rfl⟩ ⟨h.mirrors.alive, h.mirrors.working, rfl⟩ rfl
  case noneAlive hn =>
    obtain rfl := h.eq_caller (congrArg Place.pc hq)
    exact (hclears' (by rw [Function.update_self]; exact .inl rfl)).elim
  all_goals
    obtain rfl := h.eq_caller (congrArg Place.pc hq)
    first
    | exact (hclears (by rw [hq]; exact .inl rfl)).elim
    | exact (hclears (by rw [hq]; exact .inr rfl)).elim

end Nowra
