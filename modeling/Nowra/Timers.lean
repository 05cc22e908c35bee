import Nowra.Mymalloc
import Nowra.Ring
import Nowra.Run
import Nowra.TimerSpec

/-!
# The timer queue in memory

The timers of `events.c` as blocks that are linked into a ring. The calls walk the ring with a
cursor, take a timer out and put it back in, and `event_wait` takes the first timer off before it
runs its callback, which may make the calls itself.

The memory holds the list that the calls on `TimerQueue` compute (`TimerMem.Holds`), and in every
run the list agrees with the map of `TimerSpec` (`timers_refine`).

A loop over the ring gets a number of turns. It needs no more than there are timers.
-/

namespace Nowra

variable {κ γ : Type}

/-- The timers. A node of the ring is the head of the queue or part of the timer at an address. -/
structure TimerMem (κ γ : Type) where
  /-- `event_present` -/
  present : ℤ
  ring : RingHeap (Option ℕ)
  timer : ℕ → Option (EventTimer κ γ)

/-- Before the first call, the head is not initialized. -/
def timerMemInit : TimerMem κ γ := ⟨0, fun _ => ⟨none, none⟩, fun _ => none⟩

namespace TimerMem

/-! ## The operations -/

/-- Read a timer. -/
def read (q : TimerMem κ γ) (a : ℕ) : Except Fault (EventTimer κ γ) :=
  match q.timer a with
  | none => throw .outside
  | some timer => pure timer

/-- `RING_SUCC` -/
def succ (q : TimerMem κ γ) (ring : Option ℕ) : Except Fault (Option ℕ) :=
  match (q.ring ring).succ with
  | none => throw .outside
  | some ring => pure ring

/-- Write links. -/
def link (q : TimerMem κ γ) (ring : Option (RingHeap (Option ℕ))) : Except Fault (TimerMem κ γ) :=
  match ring with
  | none => throw .outside
  | some ring => pure { q with ring := ring }

/-- Store a timer. Its links are kept. -/
def store (q : TimerMem κ γ) (a : ℕ) (timer : EventTimer κ γ) : TimerMem κ γ :=
  { q with timer := Function.update q.timer a (some timer) }

/-- `FOREACH_QUEUE_ENTRY` from `ring` on, up to a timer that stops the loop. The result is the
cursor behind the loop. -/
def forEachFrom (turns : ℕ) (q : TimerMem κ γ) (stop : EventTimer κ γ → Bool) (ring : Option ℕ) :
    Except Fault (Option ℕ) :=
  match ring with
  | none => pure none
  | some a =>
    match turns with
    | 0 => throw .outside
    | turns + 1 => do
      let timer ← q.read a
      if stop timer then pure (some a) else forEachFrom turns q stop (← q.succ (some a))

/-- `FOREACH_QUEUE_ENTRY` -/
def forEach (turns : ℕ) (q : TimerMem κ γ) (stop : EventTimer κ γ → Bool) :
    Except Fault (Option ℕ) := do
  forEachFrom turns q stop (← q.succ none)

/-- Empty the queue and look the time up. -/
def eventTimeInit (q : TimerMem κ γ) (now : ℤ) : TimerMem κ γ :=
  { q with ring := ringInit none q.ring, present := now }

/-- `EVENT_INIT_NEEDED` -/
def lookUp (q : TimerMem κ γ) (now : ℤ) : TimerMem κ γ :=
  if q.present = 0 then eventTimeInit q now else q

variable [DecidableEq κ] [DecidableEq γ]

/-- The timer that a request sets, one that is reset and taken out of the queue, or a new one at
the address `addr`. -/
def takeTimer (turns : ℕ) (q : TimerMem κ γ) (callback : κ) (context : γ) (due : ℤ) (addr : ℕ) :
    Except Fault (ℕ × TimerMem κ γ) := do
  match ← forEach turns q (EventTimer.isFor callback context) with
  | some a => do
    let timer ← q.read a
    let q := q.store a { timer with due := due }
    let q ← q.link (ringDetach (some a) q.ring)
    pure (a, q)
  | none => pure (addr, q.store addr ⟨due, callback, context⟩)

/-- (Re)set a timer, the clock reading `now`. Returns the time it is due. -/
def eventRequestTimer (turns : ℕ) (q : TimerMem κ γ) (callback : κ) (context : γ)
    (delay now : ℤ) (addr : ℕ) : Except Fault (ℤ × TimerMem κ γ) :=
  let q := q.lookUp now
  if delay < 0 then throw (.panic (.invalidDelay delay))
  else do
    let q := { q with present := now }
    let (timer, q) ← takeTimer turns q callback context (q.present + delay) addr
    let due := (← q.read timer).due
    let ring ← forEach turns q fun timer => due < timer.due
    let q ← q.link (ringPrepend ring (some timer) q.ring)
    pure (due, q)

/-- `myfree` of a timer. -/
def freeTimer (q : TimerMem κ γ) (a : ℕ) : Except Fault (TimerMem κ γ) :=
  match q.timer a with
  | none => throw (.panic (.corruptOrUnallocated "myfree"))
  | some _ => pure { q with timer := Function.update q.timer a none }

/-- Cancel a timer. Returns the time left, `-1` if there was none. -/
def eventCancelTimer (turns : ℕ) (q : TimerMem κ γ) (callback : κ) (context : γ) (now : ℤ) :
    Except Fault (ℤ × TimerMem κ γ) := do
  let q := q.lookUp now
  let ring ← forEach turns q (EventTimer.isFor callback context)
  match ring with
  | none => pure (-1, q)
  | some a => do
    let timer ← q.read a
    let timeLeft := intOf (timer.due - q.present)
    let q ← q.link (ringDetach (some a) q.ring)
    let q ← q.freeTimer a
    pure (if timeLeft < 0 then 0 else timeLeft, q)

omit [DecidableEq κ] [DecidableEq γ]

/-- `event_wait` up to `epoll_wait`, the clock reading `now` and then `now'`. Returns how long to
wait. -/
def eventWaitDelay (q : TimerMem κ γ) (delay now now' : ℤ) : Except Fault (ℤ × TimerMem κ γ) := do
  let q := q.lookUp now
  match ← q.succ none with
  | none => pure (delay, q)
  | some a => do
    let timer ← q.read a
    let selectDelay := intOf (timer.due - now')
    pure (if selectDelay < 0 then 0 else if delay ≥ 0 ∧ selectDelay > delay then delay
      else selectDelay, { q with present := now' })

/-- Take the first timer off the queue if its time has come. -/
def eventFirstTimer (q : TimerMem κ γ) :
    Except Fault (Option (ℕ × EventTimer κ γ × TimerMem κ γ)) := do
  match ← q.succ none with
  | none => pure none
  | some a => do
    let timer ← q.read a
    if timer.due > q.present then pure none
    else do
      let q ← q.link (ringDetach (some a) q.ring)
      pure (some (a, timer, q))

/-! ## The list in memory -/

/-- The ring has the timers `l`, in order. -/
structure Ready (q : TimerMem κ γ) (l : List (ℕ × EventTimer κ γ)) : Prop where
  ring : IsRing q.ring none (l.map fun x => some x.1)
  timer : ∀ x ∈ l, q.timer x.1 = some x.2

variable {q : TimerMem κ γ} {l l₁ l₂ : List (ℕ × EventTimer κ γ)}

theorem read_eq {a : ℕ} {timer : EventTimer κ γ} (h : q.timer a = some timer) :
    q.read a = .ok timer := by
  rw [read, h]
  rfl

theorem succ_eq {a b : Option ℕ} (h : (q.ring a).succ = some b) : q.succ a = .ok b := by
  rw [succ, h]
  rfl

/-- The loop ends at the first timer that stops it, or at the head. -/
theorem forEachFrom_eq {stop : EventTimer κ γ → Bool} {r : Option ℕ}
    (hseg : Seg q.ring r (l.map fun x => some x.1) none)
    (htimer : ∀ x ∈ l, q.timer x.1 = some x.2) {turns : ℕ} (hturns : l.length ≤ turns) :
    (do forEachFrom turns q stop (← q.succ r)) = .ok ((l.find? (stop ·.2)).map Prod.fst) := by
  induction l generalizing r turns with
  | nil =>
    rw [succ_eq hseg.1]
    unfold forEachFrom
    rfl
  | cons x l ih =>
    obtain ⟨hsucc, -, hseg⟩ := hseg
    obtain _ | turns := turns
    · simp at hturns
    rw [succ_eq hsucc]
    refine (show forEachFrom (turns + 1) q stop (some x.1) = _ from ?_)
    unfold forEachFrom
    rw [read_eq (htimer x (List.mem_cons_self ..))]
    by_cases hstop : stop x.2 = true
    · have hfind : (x :: l).find? (stop ·.2) = some x := List.find?_cons_of_pos hstop
      rw [hfind]
      exact if_pos hstop
    · have hfind : (x :: l).find? (stop ·.2) = l.find? (stop ·.2) := List.find?_cons_of_neg hstop
      rw [hfind, ← ih hseg (fun y hy => htimer y (List.mem_cons_of_mem _ hy))
        (Nat.le_of_succ_le_succ hturns)]
      exact if_neg hstop

theorem Ready.find (h : q.Ready l) {stop : EventTimer κ γ → Bool}
    {o : Option (ℕ × EventTimer κ γ)} (ho : l.find? (stop ·.2) = o) {turns : ℕ}
    (hturns : l.length ≤ turns) : forEach turns q stop = .ok (o.map Prod.fst) :=
  ho ▸ forEachFrom_eq h.ring.seg h.timer hturns

/-- The addresses of the timers are different. -/
theorem Ready.nodup (h : q.Ready l) : (l.map Prod.fst).Nodup := by
  have hnd := (List.nodup_cons.1 h.ring.nodup).2
  rw [show (l.map fun x => some x.1) = (l.map Prod.fst).map some by rw [List.map_map]; rfl] at hnd
  exact List.Nodup.of_map _ hnd

/-- A timer is taken out of the ring. -/
theorem Ready.detach {x : ℕ × EventTimer κ γ} (h : q.Ready (l₁ ++ x :: l₂)) :
    ∃ ring, ringDetach (some x.1) q.ring = some ring ∧
      Ready { q with ring := ring } (l₁ ++ l₂) := by
  have hring := h.ring
  rw [List.map_append, List.map_cons] at hring
  obtain ⟨ring, hdetach, hring'⟩ := hring.ringDetach
  refine ⟨ring, hdetach, by rwa [List.map_append], fun y hy => h.timer y ?_⟩
  exact (List.mem_append.2 ((List.mem_append.1 hy).imp_right (List.mem_cons_of_mem _)))

/-- A timer is put into the ring, in front of the cursor. -/
theorem Ready.insert {a : ℕ} {timer : EventTimer κ γ} (h : q.Ready (l₁ ++ l₂))
    (ha : a ∉ (l₁ ++ l₂).map Prod.fst) (htimer : q.timer a = some timer) :
    ∃ ring, q.link (ringPrepend (l₂.head?.map Prod.fst) (some a) q.ring) =
        .ok { q with ring := ring } ∧
      Ready { q with ring := ring } (l₁ ++ (a, timer) :: l₂) := by
  have hnot : some a ∉ none :: (l₁ ++ l₂).map fun x => some x.1 := by
    rw [List.mem_cons, not_or]
    refine ⟨Option.some_ne_none a, fun hmem => ha ?_⟩
    obtain ⟨x, hx, heq⟩ := List.mem_map.1 hmem
    exact List.mem_map.2 ⟨x, hx, Option.some.inj heq⟩
  have hring : ∃ ring, ringPrepend (l₂.head?.map Prod.fst) (some a) q.ring = some ring ∧
      IsRing ring none ((l₁ ++ (a, timer) :: l₂).map fun x => some x.1) := by
    have hr := h.ring
    rw [List.map_append] at hr hnot ⊢
    cases l₂ with
    | nil =>
      rw [List.map_nil, List.append_nil] at hr hnot
      exact hr.ringPrepend hnot
    | cons y l₂ => exact hr.ringInsert hnot
  obtain ⟨ring, hprepend, hring'⟩ := hring
  refine ⟨ring, by rw [hprepend]; rfl, hring', fun x hx => ?_⟩
  rcases List.mem_append.1 hx with hx | hx
  · exact h.timer x (List.mem_append_left _ hx)
  · rcases List.mem_cons.1 hx with rfl | hx
    · exact htimer
    · exact h.timer x (List.mem_append_right _ hx)

/-- A timer outside the ring can change. -/
theorem Ready.of_timer (h : q.Ready l) {timer : ℕ → Option (EventTimer κ γ)}
    (htimer : ∀ a ∈ l.map Prod.fst, timer a = q.timer a) : Ready { q with timer := timer } l :=
  ⟨h.ring, fun x hx => (htimer x.1 (List.mem_map_of_mem hx)).trans (h.timer x hx)⟩

/-- The second loop of a request finds the place of the timer. -/
theorem Ready.orderedInsert {a : ℕ} {timer : EventTimer κ γ} (h : q.Ready l)
    (ha : a ∉ l.map Prod.fst) (htimer : q.timer a = some timer) :
    ∃ ring l', (∀ turns, l.length ≤ turns → (do
        let ring ← forEach turns q fun t => timer.due < t.due
        q.link (ringPrepend ring (some a) q.ring)) = .ok { q with ring := ring }) ∧
      Ready { q with ring := ring } l' ∧ l'.Perm ((a, timer) :: l) ∧
      l'.map Prod.snd = (l.map Prod.snd).orderedInsert (fun t t' => t.due < t'.due) timer := by
  obtain ⟨l₁, l₂, rfl, hins, h₁, h₂⟩ := TimerSpec.exists_orderedInsert
    (fun x y : ℕ × EventTimer κ γ => x.2.due < y.2.due) (a, timer) l
  have hfind : (l₁ ++ l₂).find? (fun x => decide (timer.due < x.2.due)) = l₂.head? := by
    rw [List.find?_append, List.find?_eq_none.2 (by simpa using h₁), Option.none_or]
    cases l₂ with
    | nil => rfl
    | cons x l₂ => exact List.find?_cons_of_pos (decide_eq_true (h₂ x rfl))
  obtain ⟨ring, hlink, hready⟩ := h.insert ha htimer
  refine ⟨ring, _, fun turns hturns => ?_, hready, List.perm_middle, ?_⟩
  · have hcursor : forEach turns q (fun t => timer.due < t.due) = .ok (l₂.head?.map Prod.fst) :=
      h.find hfind hturns
    exact bind_ok_iff.2 ⟨_, hcursor, hlink⟩
  · rw [← hins]
    exact List.map_orderedInsert _ _ _ _ _ (fun _ _ => Iff.rfl) fun _ _ => Iff.rfl

/-- The ring has the timers `l`, in order. Before the first call it is not initialized. -/
structure Holds (q : TimerMem κ γ) (l : List (ℕ × EventTimer κ γ)) : Prop where
  ring : IsRing q.ring none (l.map fun x => some x.1) ∨ q.present = 0 ∧ l = []
  timer : ∀ x ∈ l, q.timer x.1 = some x.2

theorem Ready.holds (h : q.Ready l) : q.Holds l := ⟨Or.inl h.ring, h.timer⟩

/-- The queue in memory as a list. -/
def queue (q : TimerMem κ γ) (l : List (ℕ × EventTimer κ γ)) : TimerQueue κ γ :=
  ⟨q.present, l.map Prod.snd⟩

/-- What is left of the ring if the time of day counts as not looked up. -/
def left (q : TimerMem κ γ) (l : List (ℕ × EventTimer κ γ)) : List (ℕ × EventTimer κ γ) :=
  if q.present = 0 then [] else l

theorem left_subset {x : ℕ × EventTimer κ γ} (hx : x ∈ q.left l) : x ∈ l := by
  unfold left at hx
  split at hx
  · cases hx
  · exact hx

theorem left_length : (q.left l).length ≤ l.length := by
  unfold left
  split
  · exact Nat.zero_le _
  · exact le_rfl

/-- After a look at the clock the ring is ready. -/
theorem Holds.lookUp (h : q.Holds l) (now : ℤ) : (q.lookUp now).Ready (q.left l) ∧
    (q.lookUp now).timer = q.timer ∧
    (q.lookUp now).queue (q.left l) =
      if (q.queue l).present = 0 then Nowra.eventTimeInit now else q.queue l := by
  unfold TimerMem.lookUp left
  split
  · rename_i hp
    exact ⟨⟨isRing_ringInit _ _, by simp⟩, rfl, (if_pos hp).symm⟩
  · rename_i hp
    exact ⟨⟨h.ring.resolve_right fun hz => hp hz.1, h.timer⟩, rfl, (if_neg hp).symm⟩

section Calls

variable [DecidableEq κ] [DecidableEq γ]

/-- The timer that is set is not in the ring, and the others are. -/
theorem Ready.take (h : q.Ready l) (callback : κ) (context : γ) (due : ℤ) {addr : ℕ}
    (haddr : q.timer addr = none) :
    ∃ a q' l', (∀ turns, l.length ≤ turns →
        takeTimer turns q callback context due addr = .ok (a, q')) ∧ q'.Ready l' ∧
      q'.present = q.present ∧ l'.map Prod.snd =
        (l.map Prod.snd).eraseP (EventTimer.isFor callback context) ∧
      a ∉ l'.map Prod.fst ∧ q'.timer a = some ⟨due, callback, context⟩ ∧ l'.Sublist l ∧
      (a = addr ∨ ∃ y ∈ l, y.1 = a) ∧ ∀ b, b ≠ a → q'.timer b = q.timer b := by
  unfold takeTimer
  cases hfind : l.find? (EventTimer.isFor callback context ·.2) with
  | none =>
    have hnot : addr ∉ l.map Prod.fst := by
      intro hmem
      obtain ⟨x, hx, rfl⟩ := List.mem_map.1 hmem
      cases haddr.symm.trans (h.timer x hx)
    refine ⟨addr, q.store addr ⟨due, callback, context⟩, l,
      fun turns hturns => bind_ok_iff.2 ⟨none, h.find hfind hturns, rfl⟩,
      h.of_timer fun a ha => Function.update_of_ne ?_ .., rfl,
      ?_, hnot, Function.update_self .., List.Sublist.refl l, Or.inl rfl,
      fun b hb => Function.update_of_ne hb ..⟩
    · rintro rfl
      exact hnot ha
    · rw [List.eraseP_map, List.eraseP_of_forall_not]
      exact List.find?_eq_none.1 hfind
  | some x =>
    obtain ⟨hfor, l₁, l₂, rfl, h₁⟩ := List.find?_eq_some_iff_append.1 hfind
    have hx : x.2.callback = callback ∧ x.2.context = context := by
      simpa [EventTimer.isFor] using hfor
    obtain ⟨ring, hdetach, hready⟩ := h.detach
    have hnd := h.nodup
    rw [List.map_append, List.map_cons, List.nodup_middle, List.nodup_cons,
      ← List.map_append] at hnd
    refine ⟨x.1, { q.store x.1 ⟨due, callback, context⟩ with ring := ring }, l₁ ++ l₂,
      fun turns hturns => bind_ok_iff.2 ⟨_, h.find hfind hturns, ?_⟩,
      hready.of_timer fun a ha => Function.update_of_ne ?_ .., rfl,
      ?_, hnd.1, Function.update_self .., ?_, Or.inr ⟨x, by simp, rfl⟩,
      fun b hb => Function.update_of_ne hb ..⟩
    · refine bind_ok_iff.2 ⟨x.2, read_eq (h.timer x (by simp)), ?_⟩
      rw [hx.1, hx.2]
      exact bind_ok_iff.2 ⟨_, congrArg (link _) hdetach, rfl⟩
    · rintro rfl
      exact hnd.1 ha
    · rw [List.eraseP_map, List.eraseP_append_right]
      · rw [List.eraseP_cons_of_pos (p := EventTimer.isFor callback context ∘ Prod.snd) hfor]
      · intro y hy
        simpa using h₁ y hy
    · exact (List.sublist_cons_self x l₂).append_left l₁

/-- What the calls compute on the queue, they do to the memory. What is in memory apart from the
ring stays. -/
theorem Holds.request (h : q.Holds l) (callback : κ) (context : γ) {delay : ℤ}
    (hdelay : 0 ≤ delay) (now : ℤ) {addr : ℕ} (haddr : q.timer addr = none) :
    ∃ q' l', (∀ turns, l.length ≤ turns →
        eventRequestTimer turns q callback context delay now addr = .ok (now + delay, q')) ∧
      Nowra.eventRequestTimer (q.queue l) callback context delay now =
        .ok (now + delay, q'.queue l') ∧
      q'.Ready l' ∧ q'.present = now ∧ (∀ x ∈ l', x.1 = addr ∨ ∃ y ∈ l, y.1 = x.1) ∧
      ∀ a, a ≠ addr → (∀ y ∈ l, y.1 ≠ a) → q'.timer a = q.timer a := by
  obtain ⟨hready, htimer, hqueue⟩ := h.lookUp now
  have hsub : ∀ x ∈ q.left l, x ∈ l := fun x => left_subset
  have hle : (q.left l).length ≤ l.length := left_length
  unfold eventRequestTimer Nowra.eventRequestTimer
  simp only [← hqueue]
  generalize q.lookUp now = r at *
  generalize q.left l = m at *
  simp only [if_neg (show ¬delay < 0 by omega)]
  have hready₁ : Ready { r with present := now } m := ⟨hready.ring, hready.timer⟩
  obtain ⟨a, q₁, m₁, htake, hready', hpresent, hmap, hnot, hself, hsub₁, ha, hframe⟩ :=
    hready₁.take callback context (now + delay) (htimer ▸ haddr)
  obtain ⟨ring, m₂, hrun, hready₂, hperm, hmap₂⟩ :=
    hready'.orderedInsert hnot hself
  refine ⟨{ q₁ with ring := ring }, m₂, fun turns hturns => ?_, ?_, hready₂,
    hpresent, fun x hx => ?_, fun b hb hbl => ?_⟩
  · have hm := hle.trans hturns
    obtain ⟨cursor, hcursor, hlink⟩ := bind_ok_iff.1 (hrun turns (hsub₁.length_le.trans hm))
    refine bind_ok_iff.2 ⟨(a, q₁), htake turns hm, bind_ok_iff.2 ⟨_, read_eq hself, ?_⟩⟩
    exact bind_ok_iff.2 ⟨cursor, hcursor, bind_ok_iff.2 ⟨_, hlink, rfl⟩⟩
  · rw [hmap] at hmap₂
    simp only [queue, hmap₂, hpresent]
    rfl
  · rcases List.mem_cons.1 (hperm.mem_iff.1 hx) with rfl | hx
    · rcases ha with ha | ⟨y, hy, heq⟩
      · exact Or.inl ha
      · exact Or.inr ⟨y, hsub y hy, heq⟩
    · exact Or.inr ⟨x, hsub x (hsub₁.subset hx), rfl⟩
  · refine (hframe b ?_).trans (congrFun htimer b)
    rintro rfl
    rcases ha with rfl | ⟨y, hy, heq⟩
    · exact hb rfl
    · exact hbl y (hsub y hy) heq

/-- A cancel takes the timer out of the ring and out of the memory, as it takes it out of the
queue. -/
theorem Holds.cancel (h : q.Holds l) (callback : κ) (context : γ) (now : ℤ) :
    ∃ r q' l', (∀ turns, l.length ≤ turns →
        eventCancelTimer turns q callback context now = .ok (r, q')) ∧
      (0 ≤ r ↔ 0 ≤ (Nowra.eventCancelTimer (q.queue l) callback context now).1) ∧
      (Nowra.eventCancelTimer (q.queue l) callback context now).2 = q'.queue l' ∧
      q'.Ready l' ∧ (∀ x ∈ l', x ∈ l) ∧ ∀ a, (∀ y ∈ l, y.1 ≠ a) → q'.timer a = q.timer a := by
  obtain ⟨hready, htimer, hqueue⟩ := h.lookUp now
  have hsub : ∀ x ∈ q.left l, x ∈ l := fun x => left_subset
  have hle : (q.left l).length ≤ l.length := left_length
  unfold eventCancelTimer Nowra.eventCancelTimer
  simp only [← hqueue]
  generalize q.lookUp now = r at *
  generalize q.left l = m at *
  have hmap : (r.queue m).timers.find? (EventTimer.isFor callback context) =
      (m.find? (EventTimer.isFor callback context ·.2)).map Prod.snd := List.find?_map
  cases hfind : m.find? (EventTimer.isFor callback context ·.2) with
  | none =>
    rw [hfind] at hmap
    refine ⟨-1, r, m, fun turns hturns =>
      bind_ok_iff.2 ⟨_, hready.find hfind (hle.trans hturns), rfl⟩, ?_, ?_, hready, hsub,
      fun a _ => congrFun htimer a⟩
    · simp [hmap]
    · simp [hmap]
  | some x =>
    rw [hfind] at hmap
    obtain ⟨hfor, l₁, l₂, rfl, h₁⟩ := List.find?_eq_some_iff_append.1 hfind
    obtain ⟨ring, hdetach, hready'⟩ := hready.detach
    have hx := hready.timer x (by simp)
    have hnd := hready.nodup
    rw [List.map_append, List.map_cons, List.nodup_middle, List.nodup_cons,
      ← List.map_append] at hnd
    have hfree : freeTimer { r with ring := ring } x.1 =
        .ok { r with ring := ring, timer := Function.update r.timer x.1 none } := by
      simp only [freeTimer, hx]
      rfl
    have herase : (r.queue (l₁ ++ x :: l₂)).timers.eraseP (EventTimer.isFor callback context) =
        (l₁ ++ l₂).map Prod.snd := by
      rw [queue, List.eraseP_map, List.eraseP_append_right]
      · rw [List.eraseP_cons_of_pos (p := EventTimer.isFor callback context ∘ Prod.snd) hfor]
      · intro y hy
        simpa using h₁ y hy
    refine ⟨if intOf (x.2.due - r.present) < 0 then 0 else intOf (x.2.due - r.present),
      { r with ring := ring, timer := Function.update r.timer x.1 none }, l₁ ++ l₂,
      fun turns hturns => bind_ok_iff.2 ⟨_, hready.find hfind (hle.trans hturns), ?_⟩, ?_, ?_,
      hready'.of_timer fun a ha => Function.update_of_ne ?_ .., fun y hy => hsub y ?_,
      fun a ha => (Function.update_of_ne ?_ ..).trans (congrFun htimer a)⟩
    · refine bind_ok_iff.2 ⟨x.2, read_eq hx, bind_ok_iff.2 ⟨_, congrArg (link r) hdetach, ?_⟩⟩
      exact bind_ok_iff.2 ⟨_, hfree, rfl⟩
    · simp only [hmap, Option.map_some]
      refine iff_of_true ?_ ?_ <;> split <;> omega
    · simp only [hmap, Option.map_some, herase]
      rfl
    · rintro rfl
      exact hnd.1 ha
    · exact ((List.sublist_cons_self x l₂).append_left l₁).subset hy
    · rintro rfl
      exact ha x (hsub x (by simp)) rfl

end Calls

/-- `event_wait` looks at the clock before it waits. -/
theorem Holds.waitDelay (h : q.Holds l) (delay now now' : ℤ) :
    ∃ d q', eventWaitDelay q delay now now' = .ok (d, q') ∧ q'.Ready (q.left l) ∧
      q'.timer = q.timer := by
  obtain ⟨hready, htimer, -⟩ := h.lookUp now
  unfold eventWaitDelay
  generalize q.lookUp now = r at *
  generalize q.left l = m at *
  cases m with
  | nil => exact ⟨delay, r, bind_ok_iff.2 ⟨none, succ_eq hready.ring.seg.1, rfl⟩, hready, htimer⟩
  | cons x m =>
    have hx := hready.timer x (List.mem_cons_self ..)
    refine ⟨_, { r with present := now' }, bind_ok_iff.2 ⟨some x.1, succ_eq hready.ring.seg.1,
      bind_ok_iff.2 ⟨x.2, read_eq hx, rfl⟩⟩, ⟨hready.ring, hready.timer⟩, htimer⟩

theorem Ready.first_nil (h : q.Ready []) : eventFirstTimer q = .ok none :=
  bind_ok_iff.2 ⟨none, succ_eq h.ring.seg.1, rfl⟩

/-- The first timer is taken out of the ring if its time has come. -/
theorem Ready.first_cons {x : ℕ × EventTimer κ γ} (h : q.Ready (x :: l)) :
    (x.2.due > q.present ∧ eventFirstTimer q = .ok none) ∨
    (x.2.due ≤ q.present ∧ ∃ ring, eventFirstTimer q =
      .ok (some (x.1, x.2, { q with ring := ring })) ∧ Ready { q with ring := ring } l) := by
  have hx := h.timer x (List.mem_cons_self ..)
  unfold eventFirstTimer
  rcases lt_or_ge q.present x.2.due with hlt | hle
  · refine Or.inl ⟨hlt, bind_ok_iff.2 ⟨some x.1, succ_eq h.ring.seg.1, ?_⟩⟩
    exact bind_ok_iff.2 ⟨x.2, read_eq hx, if_pos hlt⟩
  · have h' : q.Ready ([] ++ x :: l) := h
    obtain ⟨ring, hdetach, hready⟩ := h'.detach
    refine Or.inr ⟨hle, ring, bind_ok_iff.2 ⟨some x.1, succ_eq h.ring.seg.1, ?_⟩, hready⟩
    refine bind_ok_iff.2 ⟨x.2, read_eq hx, (if_neg hle.not_gt).trans ?_⟩
    exact bind_ok_iff.2 ⟨_, congrArg (link q) hdetach, rfl⟩

end TimerMem

/-! ## Runs -/

/-- Where a call of `event_wait` is. -/
inductive WaitFrame
  | blocked
  | timers
  /-- The callback of the timer at this address runs. -/
  | calling (a : ℕ)
  | events

/-- The timers, the calls of `event_wait` that have not returned, the last one first, and the
pairs that are pending. -/
structure TimerRun (κ γ : Type) where
  mem : TimerMem κ γ
  frames : List WaitFrame
  spec : TimerSpec κ γ

/-- Some callback or the main program runs. -/
def Running : List WaitFrame → Prop
  | [] | .calling _ :: _ | .events :: _ => True
  | .blocked :: _ | .timers :: _ => False

/-- A computation has the result `r` with enough turns. -/
def Returns {α : Type} (f : ℕ → Except Fault α) (r : α) : Prop :=
  ∃ n, ∀ turns, n ≤ turns → f turns = .ok r

/-- What happens to the timers. Each reading of the clock is any number. -/
inductive TimerLabel (κ γ : Type)
  | request (callback : κ) (context : γ) (delay now : ℤ)
  | cancel (callback : κ) (context : γ) (now : ℤ)
  /-- `event_wait` is called and looks at the clock. -/
  | wait (delay now now' : ℤ)
  /-- `epoll_wait` is interrupted. -/
  | interrupted
  /-- `epoll_wait` returns. -/
  | ready (now : ℤ)
  /-- The first timer is taken off and its callback called. -/
  | call (callback : κ) (context : γ)
  /-- The callback returns and the timer is freed. -/
  | returned
  /-- The time of no timer has come. -/
  | timersDone
  | eventsDone

variable [DecidableEq κ] [DecidableEq γ]

/-- One of these. A request puts a new timer at any address that is not used. -/
inductive TimerStep (s : TimerRun κ γ) : TimerLabel κ γ → TimerRun κ γ → Prop
  | request {callback : κ} {context : γ} {delay now : ℤ} {addr : ℕ} {r : ℤ × TimerMem κ γ}
      (hrun : Running s.frames) (hdelay : 0 ≤ delay) (haddr : s.mem.timer addr = none)
      (h : Returns (TimerMem.eventRequestTimer · s.mem callback context delay now addr) r) :
      TimerStep s (.request callback context delay now) ⟨r.2, s.frames,
        (s.spec.lookUp s.mem.present).request (callback, context) (now + delay)⟩
  | cancel {callback : κ} {context : γ} {now : ℤ} {r : ℤ × TimerMem κ γ}
      (hrun : Running s.frames)
      (h : Returns (TimerMem.eventCancelTimer · s.mem callback context now) r) :
      TimerStep s (.cancel callback context now) ⟨r.2, s.frames,
        (s.spec.lookUp s.mem.present).cancel (callback, context)⟩
  | wait {delay now now' : ℤ} {r : ℤ × TimerMem κ γ} (hrun : Running s.frames)
      (h : TimerMem.eventWaitDelay s.mem delay now now' = .ok r) :
      TimerStep s (.wait delay now now')
        ⟨r.2, .blocked :: s.frames, s.spec.lookUp s.mem.present⟩
  | interrupted {frames : List WaitFrame} (hframes : s.frames = .blocked :: frames) :
      TimerStep s .interrupted { s with frames := frames }
  | ready {now : ℤ} {frames : List WaitFrame} (hframes : s.frames = .blocked :: frames) :
      TimerStep s (.ready now) ⟨{ s.mem with present := now }, .timers :: frames, s.spec⟩
  | call {frames : List WaitFrame} {x : ℕ × EventTimer κ γ × TimerMem κ γ}
      (hframes : s.frames = .timers :: frames) (h : TimerMem.eventFirstTimer s.mem = .ok (some x)) :
      TimerStep s (.call x.2.1.callback x.2.1.context)
        ⟨x.2.2, .calling x.1 :: frames, s.spec.cancel x.2.1.pair⟩
  | returned {frames : List WaitFrame} {a : ℕ} {q : TimerMem κ γ}
      (hframes : s.frames = .calling a :: frames) (h : TimerMem.freeTimer s.mem a = .ok q) :
      TimerStep s .returned ⟨q, .timers :: frames, s.spec⟩
  | timersDone {frames : List WaitFrame} (hframes : s.frames = .timers :: frames)
      (h : TimerMem.eventFirstTimer s.mem = .ok none) :
      TimerStep s .timersDone { s with frames := .events :: frames }
  | eventsDone {frames : List WaitFrame} (hframes : s.frames = .events :: frames) :
      TimerStep s .eventsDone { s with frames := frames }

/-- Any program that uses timers. -/
def timerSystem (κ γ : Type) [DecidableEq κ] [DecidableEq γ] :
    LTS (TimerRun κ γ) (TimerLabel κ γ) where
  init s := s = ⟨timerMemInit, [], ⟨fun _ => none, 0⟩⟩
  step := TimerStep

omit [DecidableEq κ] [DecidableEq γ]

/-- The timers whose callbacks run. -/
def callings (frames : List WaitFrame) : List ℕ :=
  frames.filterMap fun
    | .calling a => some a
    | _ => none

namespace TimerRun

/-- The ring holds a list that agrees with the pairs, and apart from it the timers whose callbacks
run are in memory. -/
structure Inv (s : TimerRun κ γ) (l : List (ℕ × EventTimer κ γ)) : Prop where
  holds : s.mem.Holds l
  ready : s.frames ≠ [] → s.mem.Ready l
  agrees : s.spec.Agrees (l.map Prod.snd)
  calling : ∀ a ∈ callings s.frames, s.mem.timer a ≠ none ∧ ∀ x ∈ l, x.1 ≠ a
  nodup : (callings s.frames).Nodup

variable {s : TimerRun κ γ} {l : List (ℕ × EventTimer κ γ)}

theorem Inv.lookUp (h : s.Inv l) :
    (s.spec.lookUp s.mem.present).Agrees ((s.mem.left l).map Prod.snd) := by
  unfold TimerSpec.lookUp TimerMem.left
  split
  · exact TimerSpec.agrees_clear _
  · exact h.agrees

theorem inv_init : Inv (κ := κ) (γ := γ) ⟨timerMemInit, [], ⟨fun _ => none, 0⟩⟩ [] :=
  ⟨⟨Or.inr ⟨rfl, rfl⟩, by simp⟩, fun h => absurd rfl h,
    TimerSpec.agrees_clear ⟨fun _ => none, 0⟩, by simp [callings], List.nodup_nil⟩

variable [DecidableEq κ] [DecidableEq γ]

/-- A request keeps the invariant. -/
theorem Inv.request (h : s.Inv l) {callback : κ} {context : γ} {delay now : ℤ} {addr : ℕ}
    {r : ℤ × TimerMem κ γ} (hdelay : 0 ≤ delay) (haddr : s.mem.timer addr = none)
    (hr : Returns (TimerMem.eventRequestTimer · s.mem callback context delay now addr) r) :
    r.2.present = now ∧ ∃ l', Inv ⟨r.2, s.frames,
      (s.spec.lookUp s.mem.present).request (callback, context) (now + delay)⟩ l' := by
  obtain ⟨n, hn⟩ := hr
  obtain ⟨q, l', hrun, hqueue, hready, hpresent, hl', hframe⟩ :=
    h.holds.request callback context hdelay now haddr
  obtain rfl := Except.ok.inj ((hn _ (Nat.le_max_left n l.length)).symm.trans
    (hrun _ (Nat.le_max_right n l.length)))
  have hagrees := (TimerSpec.Agrees.requestTimer (q := s.mem.queue l) h.agrees hqueue).2
  refine ⟨hpresent, l', hready.holds, fun _ => hready, hagrees, fun a ha => ?_, h.nodup⟩
  obtain ⟨hmem, hne⟩ := h.calling a ha
  have haddr' : a ≠ addr := by
    rintro rfl
    exact hmem haddr
  refine ⟨(hframe a haddr' hne).symm ▸ hmem, fun x hx => ?_⟩
  rcases hl' x hx with heq | ⟨y, hy, heq⟩
  · exact heq ▸ haddr'.symm
  · exact heq ▸ hne y hy

theorem Inv.cancel (h : s.Inv l) {callback : κ} {context : γ} {now : ℤ} {r : ℤ × TimerMem κ γ}
    (hr : Returns (TimerMem.eventCancelTimer · s.mem callback context now) r) :
    (0 ≤ r.1 ↔ (s.spec.lookUp s.mem.present).pending (callback, context) ≠ none) ∧
      ∃ l', Inv ⟨r.2, s.frames,
        (s.spec.lookUp s.mem.present).cancel (callback, context)⟩ l' := by
  obtain ⟨n, hn⟩ := hr
  obtain ⟨left, q, l', hrun, hleft, hqueue, hready, hl', hframe⟩ :=
    h.holds.cancel callback context now
  obtain rfl := Except.ok.inj ((hn _ (Nat.le_max_left n l.length)).symm.trans
    (hrun _ (Nat.le_max_right n l.length)))
  have hagrees := TimerSpec.Agrees.cancelTimer (q := s.mem.queue l) h.agrees callback context now
  rw [hqueue, ← hleft] at hagrees
  refine ⟨hagrees.1, l', hready.holds, fun _ => hready, hagrees.2, fun a ha => ?_, h.nodup⟩
  obtain ⟨hmem, hne⟩ := h.calling a ha
  exact ⟨(hframe a hne).symm ▸ hmem, fun x hx => hne x (hl' x hx)⟩

theorem Inv.step {t : TimerRun κ γ} {a : TimerLabel κ γ} (h : s.Inv l)
    (hst : (timerSystem κ γ).step s a t) : ∃ l', t.Inv l' := by
  cases hst with
  | request _ hdelay haddr hr => exact (h.request hdelay haddr hr).2
  | cancel _ hr => exact (h.cancel hr).2
  | @wait delay now now' r _ hr =>
    obtain ⟨d, q, hrun, hready, htimer⟩ := h.holds.waitDelay delay now now'
    obtain rfl := Except.ok.inj (hr.symm.trans hrun)
    refine ⟨_, hready.holds, fun _ => hready, h.lookUp, fun a ha => ?_, h.nodup⟩
    obtain ⟨hmem, hne⟩ := h.calling a ha
    exact ⟨by rwa [htimer], fun x hx => hne x (TimerMem.left_subset hx)⟩
  | @interrupted frames hframes =>
    have hready := h.ready (by simp [hframes])
    have hcallings : callings s.frames = callings frames := by rw [hframes]; rfl
    exact ⟨l, h.holds, fun _ => hready, h.agrees, hcallings ▸ h.calling, hcallings ▸ h.nodup⟩
  | @ready now frames hframes =>
    have hready := h.ready (by simp [hframes])
    have hcallings : callings s.frames = callings (.timers :: frames) := by rw [hframes]; rfl
    exact ⟨l, ⟨Or.inl hready.ring, hready.timer⟩, fun _ => ⟨hready.ring, hready.timer⟩, h.agrees,
      hcallings ▸ h.calling, hcallings ▸ h.nodup⟩
  | @call frames x hframes hr =>
    have hready := h.ready (by simp [hframes])
    have hcallings : callings s.frames = callings frames := by rw [hframes]; rfl
    have hcalling := hcallings ▸ h.calling
    have hnodup := hcallings ▸ h.nodup
    cases l with
    | nil => cases hready.first_nil.symm.trans hr
    | cons y l =>
      rcases hready.first_cons with ⟨-, hnone⟩ | ⟨-, ring, hfirst, hready'⟩
      · cases hnone.symm.trans hr
      · obtain rfl := Option.some.inj (Except.ok.inj (hfirst.symm.trans hr))
        have hnd := List.nodup_cons.1 hready.nodup
        refine ⟨l, hready'.holds, fun _ => hready', h.agrees.first, fun a ha => ?_, ?_⟩
        · rcases List.mem_cons.1 ha with rfl | ha
          · refine ⟨by simp [hready.timer y], fun z hz heq => hnd.1 ?_⟩
            exact List.mem_map.2 ⟨z, hz, heq⟩
          · exact ⟨(hcalling a ha).1, fun z hz => (hcalling a ha).2 z (List.mem_cons_of_mem _ hz)⟩
        · refine List.nodup_cons.2 ⟨fun hmem => ?_, hnodup⟩
          exact (hcalling y.1 hmem).2 y (List.mem_cons_self ..) rfl
  | @returned frames a q hframes hr =>
    have hready := h.ready (by simp [hframes])
    have hcallings : callings s.frames = a :: callings frames := by rw [hframes]; rfl
    have hcalling := hcallings ▸ h.calling
    have hnodup := List.nodup_cons.1 (hcallings ▸ h.nodup)
    obtain ⟨hmem, hne⟩ := hcalling a (List.mem_cons_self ..)
    obtain ⟨timer, htimer⟩ := Option.ne_none_iff_exists'.1 hmem
    unfold TimerMem.freeTimer at hr
    rw [htimer] at hr
    obtain rfl := Except.ok.inj hr
    have hready' : TimerMem.Ready { s.mem with timer := Function.update s.mem.timer a none } l := by
      refine hready.of_timer fun b hb => Function.update_of_ne ?_ ..
      rintro rfl
      obtain ⟨x, hx, heq⟩ := List.mem_map.1 hb
      exact hne x hx heq
    refine ⟨l, hready'.holds, fun _ => hready', h.agrees, fun b hb => ?_, hnodup.2⟩
    obtain ⟨hmem', hne'⟩ := hcalling b (List.mem_cons_of_mem _ hb)
    have hb' : Function.update s.mem.timer a none b = s.mem.timer b := by
      refine Function.update_of_ne ?_ ..
      rintro rfl
      exact hnodup.1 hb
    exact ⟨fun hnone => hmem' (hb'.symm.trans hnone), hne'⟩
  | @timersDone frames hframes hr =>
    have hready := h.ready (by simp [hframes])
    have hcallings : callings s.frames = callings (.events :: frames) := by rw [hframes]; rfl
    exact ⟨l, h.holds, fun _ => hready, h.agrees, hcallings ▸ h.calling, hcallings ▸ h.nodup⟩
  | @eventsDone frames hframes =>
    have hready := h.ready (by simp [hframes])
    have hcallings : callings s.frames = callings frames := by rw [hframes]; rfl
    exact ⟨l, h.holds, fun _ => hready, h.agrees, hcallings ▸ h.calling, hcallings ▸ h.nodup⟩

/-- A program that runs can request a pair. What is in memory apart from the ring stays. -/
theorem Inv.exists_request (h : s.Inv l) (hrun : Running s.frames) (callback : κ) (context : γ)
    {delay : ℤ} (hdelay : 0 ≤ delay) (now : ℤ) {addr : ℕ} (haddr : s.mem.timer addr = none) :
    ∃ q, (timerSystem κ γ).step s (.request callback context delay now) ⟨q, s.frames,
        (s.spec.lookUp s.mem.present).request (callback, context) (now + delay)⟩ ∧
      q.present = now ∧ ∀ a, a ≠ addr → (∀ y ∈ l, y.1 ≠ a) → q.timer a = s.mem.timer a := by
  obtain ⟨q, l', hok, -, -, hpresent, -, hframe⟩ :=
    h.holds.request callback context hdelay now haddr
  exact ⟨q, .request hrun hdelay haddr ⟨l.length, hok⟩, hpresent, hframe⟩

/-- A program that runs can call `event_wait`. -/
theorem Inv.exists_wait (h : s.Inv l) (hrun : Running s.frames) (delay now now' : ℤ) :
    ∃ q, (timerSystem κ γ).step s (.wait delay now now')
      ⟨q, .blocked :: s.frames, s.spec.lookUp s.mem.present⟩ := by
  obtain ⟨d, q, hok, -⟩ := h.holds.waitDelay delay now now'
  exact ⟨q, .wait hrun hok⟩

theorem inv_of_reach (h : (timerSystem κ γ).Reach s) : ∃ l, s.Inv l := by
  refine h.invariant (P := fun s => ∃ l, s.Inv l) ?_ fun _ _ _ ⟨_, hs⟩ hst => hs.step hst
  rintro _ rfl
  exact ⟨[], inv_init⟩

omit [DecidableEq κ] [DecidableEq γ] in
/-- The head of the queue is the least of the pending pairs, and is taken off if its time has
come. -/
theorem Inv.first (h : s.Inv l) {frames : List WaitFrame} (hframes : s.frames = .timers :: frames) :
    (TimerMem.eventFirstTimer s.mem = .ok none ∧
      ∀ pair due n, s.spec.pending pair = some (due, n) → s.mem.present < due) ∨
    ∃ x n, TimerMem.eventFirstTimer s.mem = .ok (some x) ∧ x.2.1.due ≤ s.mem.present ∧
      s.spec.pending x.2.1.pair = some (x.2.1.due, n) ∧
      ∀ pair due n', s.spec.pending pair = some (due, n') → pair ≠ x.2.1.pair →
        x.2.1.due < due ∨ x.2.1.due = due ∧ n < n' := by
  have hready := h.ready (by simp [hframes])
  cases l with
  | nil =>
    refine Or.inl ⟨hready.first_nil, fun pair due n hn => ?_⟩
    cases h.agrees.mem pair due n hn
  | cons y l =>
    obtain ⟨hfirst, -⟩ := List.pairwise_cons.1 (List.pairwise_map.1 h.agrees.sorted)
    obtain ⟨k, hk⟩ := h.agrees.pending y.2 (List.mem_cons_self ..)
    have hnumber : s.spec.number y.2.pair = k := by
      rw [TimerSpec.number, hk]
      rfl
    have hlater : ∀ pair due n, s.spec.pending pair = some (due, n) → pair ≠ y.2.pair →
        y.2.due < due ∨ y.2.due = due ∧ k < n := by
      intro pair due n hn hne
      obtain ⟨x, hx, heq⟩ := List.mem_map.1 (h.agrees.mem pair due n hn)
      have hpair : x.2.pair = pair := by rw [heq]; rfl
      rcases List.mem_cons.1 hx with rfl | hx
      · exact absurd hpair.symm hne
      · have hb := hfirst x hx
        have hnum : s.spec.number pair = n := by rw [TimerSpec.number, hn]; rfl
        rwa [TimerSpec.Before, hnumber, hpair, hnum, show x.2.due = due by rw [heq]] at hb
    rcases hready.first_cons with ⟨hlt, hnone⟩ | ⟨hle, ring, hsome, -⟩
    · refine Or.inl ⟨hnone, fun pair due n hn => ?_⟩
      rcases eq_or_ne pair y.2.pair with rfl | hne
      · obtain ⟨rfl, -⟩ := Prod.mk.inj (Option.some.inj (hk.symm.trans hn))
        exact hlt
      · rcases hlater pair due n hn hne with h | h <;> omega
    · exact Or.inr ⟨_, k, hsome, hle, hk, hlater⟩

end TimerRun

variable [DecidableEq κ] [DecidableEq γ]

/-- In every run the ring has one timer for each pending pair, with the time it is due, in the
order of these times and of the latest requests. A request returns the time the pair is due, and a
cancel says whether it was pending. The first timer is taken off if the time of a pair has come. -/
theorem timers_refine {s : TimerRun κ γ} (h : (timerSystem κ γ).Reach s) :
    (∃ l, s.mem.Holds l ∧ l.Pairwise (fun x y => x.2.due ≤ y.2.due) ∧
      (l.map (·.2.pair)).Nodup ∧
      l.Pairwise (fun x y => x.2.due = y.2.due → s.spec.number x.2.pair < s.spec.number y.2.pair) ∧
      ∀ pair due, (∃ x ∈ l, x.2.pair = pair ∧ x.2.due = due) ↔
        ∃ n, s.spec.pending pair = some (due, n)) ∧
    (∀ callback context delay now addr, 0 ≤ delay → s.mem.timer addr = none → ∃ q,
      Returns (TimerMem.eventRequestTimer · s.mem callback context delay now addr)
        (now + delay, q)) ∧
    (∀ callback context now, ∃ r,
      Returns (TimerMem.eventCancelTimer · s.mem callback context now) r ∧
      (0 ≤ r.1 ↔ (s.spec.lookUp s.mem.present).pending (callback, context) ≠ none)) ∧
    ∀ frames, s.frames = .timers :: frames →
      (∃ o, TimerMem.eventFirstTimer s.mem = .ok o ∧ (o = none ↔ ∀ pair due n,
        s.spec.pending pair = some (due, n) → s.mem.present < due)) ∧
      ∀ x, TimerMem.eventFirstTimer s.mem = .ok (some x) → x.2.1.due ≤ s.mem.present ∧
        ∀ pair due n, s.spec.pending pair = some (due, n) → pair ≠ x.2.1.pair →
          x.2.1.due < due ∨ x.2.1.due = due ∧ s.spec.number x.2.1.pair < n := by
  obtain ⟨l, hinv⟩ := TimerRun.inv_of_reach h
  have hsorted := List.pairwise_map.1 hinv.agrees.sorted
  refine ⟨⟨l, hinv.holds, ?_, ?_, ?_, fun pair due => ⟨?_, ?_⟩⟩,
    fun callback context delay now addr hdelay haddr => ?_, fun callback context now => ?_,
    fun frames hframes => ?_⟩
  · exact hsorted.imp fun hb => hb.le
  · have hpairs := hinv.agrees.pairs
    rwa [List.map_map] at hpairs
  · refine hsorted.imp fun hb heq => ?_
    rcases hb with hlt | hb
    · omega
    · exact hb.2
  · rintro ⟨x, hx, rfl, rfl⟩
    exact hinv.agrees.pending _ (List.mem_map_of_mem hx)
  · rintro ⟨n, hn⟩
    obtain ⟨x, hx, heq⟩ := List.mem_map.1 (hinv.agrees.mem pair due n hn)
    exact ⟨x, hx, by rw [heq]; rfl, by rw [heq]⟩
  · obtain ⟨q, l', hrun, -⟩ := hinv.holds.request callback context hdelay now haddr
    exact ⟨q, l.length, hrun⟩
  · obtain ⟨r, q, l', hrun, -⟩ := hinv.holds.cancel callback context now
    exact ⟨(r, q), ⟨l.length, hrun⟩, (hinv.cancel ⟨l.length, hrun⟩).1⟩
  · rcases hinv.first hframes with ⟨hnone, hall⟩ | ⟨x, n, hsome, hle, hpending, hleast⟩
    · exact ⟨⟨none, hnone, iff_of_true rfl hall⟩, fun x hx => by cases hnone.symm.trans hx⟩
    · have hnumber : s.spec.number x.2.1.pair = n := by
        rw [TimerSpec.number, hpending]
        rfl
      refine ⟨⟨_, hsome, iff_of_false (Option.some_ne_none _) fun hall => ?_⟩, fun x' hx => ?_⟩
      · exact absurd (hall _ _ _ hpending) hle.not_gt
      · obtain rfl := Option.some.inj (Except.ok.inj (hsome.symm.trans hx))
        rw [hnumber]
        exact ⟨hle, hleast⟩

/-- Two pairs are requested for 5 seconds later, and then the first for 7 seconds later instead.
When the time of the second has come, the first timer can be taken off. -/
theorem timers_refine_two : ∃ s : TimerRun Unit ℕ, ∃ tr, (timerSystem Unit ℕ).Run tr s ∧
    tr.map (fun m => m.2.1) = [.request () 1 5 100, .request () 2 5 100, .request () 1 7 101,
      .wait 10 101 101, .ready 106] ∧
    (∃ l, s.mem.Holds l ∧ l.Pairwise (fun x y => x.2.due ≤ y.2.due) ∧
      (∃ x ∈ l, x.2.pair = ((), 2) ∧ x.2.due = 105) ∧
      (∃ x ∈ l, x.2.pair = ((), 1) ∧ x.2.due = 108) ∧
      ¬∃ x ∈ l, x.2.pair = ((), 1) ∧ x.2.due = 105) ∧
    ∃ x, TimerMem.eventFirstTimer s.mem = .ok (some x) ∧ x.2.1.due ≤ 106 := by
  have hinit : TimerRun.Inv (κ := Unit) (γ := ℕ) _ _ := TimerRun.inv_init
  obtain ⟨q₁, hst₁, hpresent₁, hframe₁⟩ :=
    hinit.exists_request trivial () 1 (show (0 : ℤ) ≤ 5 by decide) 100
      (show timerMemInit.timer 0 = none from rfl)
  obtain ⟨l₁, hinv₁⟩ := hinit.step hst₁
  have hfree : ∀ a ≠ 0, q₁.timer a = none := fun a ha => hframe₁ a ha (by simp)
  obtain ⟨q₂, hst₂, hpresent₂, hframe₂⟩ :=
    hinv₁.exists_request trivial () 2 (show (0 : ℤ) ≤ 5 by decide) 100 (hfree 1 (by decide))
  obtain ⟨l₂, hinv₂⟩ := hinv₁.step hst₂
  have hfree₂ : q₂.timer 2 = none := by
    rw [hframe₂ 2 (by decide) fun y hy heq => ?_]
    · exact hfree 2 (by decide)
    · have htimer := hinv₁.holds.timer y hy
      rw [heq, hfree 2 (by decide)] at htimer
      cases htimer
  obtain ⟨q₃, hst₃, hpresent₃, -⟩ :=
    hinv₂.exists_request trivial () 1 (show (0 : ℤ) ≤ 7 by decide) 101 hfree₂
  obtain ⟨l₃, hinv₃⟩ := hinv₂.step hst₃
  obtain ⟨q₄, hst₄⟩ := hinv₃.exists_wait trivial 10 101 101
  have hready : ∀ s : TimerRun Unit ℕ, s.frames = [.blocked] → (timerSystem Unit ℕ).step s
      (.ready 106) ⟨{ s.mem with present := 106 }, [.timers], s.spec⟩ := fun _ hs => .ready hs
  have hp := ((((LTS.Path.single hst₁).snoc hst₂).snoc hst₃).snoc hst₄).snoc (hready _ rfl)
  obtain ⟨⟨l, hl, hsorted, -, -, hmem⟩, -, -, hfirst⟩ := timers_refine ⟨_, _, rfl, hp⟩
  obtain ⟨⟨o, ho, hnone⟩, hdue⟩ := hfirst [] rfl
  simp only [hpresent₁, hpresent₂, hpresent₃, TimerSpec.lookUp, TimerSpec.request,
    TimerSpec.clear] at hmem hnone
  have hpending := (hmem ((), 2) 105).2 ⟨1, by decide⟩
  refine ⟨_, _, ⟨_, rfl, hp⟩, rfl, ⟨l, hl, hsorted, hpending, (hmem ((), 1) 108).2 ⟨2, by decide⟩,
    fun h => ?_⟩, ?_⟩
  · obtain ⟨n, hn⟩ := (hmem ((), 1) 105).1 h
    simp at hn
  · cases o with
    | none => exact absurd (hnone.1 rfl ((), 2) 105 1 (by decide)) (by decide)
    | some x => exact ⟨x, ho, (hdue x ho).1⟩

/-- A pair that was requested while the clock read 0 is not pending after another request, though
nothing cancelled it and no timer was taken off. -/
theorem not_timers_refine_zero : ∃ s : TimerRun Unit ℕ, ∃ tr, (timerSystem Unit ℕ).Run tr s ∧
    tr.map (fun m => m.2.1) = [.request () 1 5 0, .request () 2 5 10] ∧
    ∃ r, Returns (TimerMem.eventCancelTimer · s.mem () 1 10) r ∧ r.1 < 0 := by
  have hinit : TimerRun.Inv (κ := Unit) (γ := ℕ) _ _ := TimerRun.inv_init
  obtain ⟨q, hst, hpresent, hframe⟩ :=
    hinit.exists_request trivial () 1 (show (0 : ℤ) ≤ 5 by decide) 0
      (show timerMemInit.timer 0 = none from rfl)
  obtain ⟨l, hinv⟩ := hinit.step hst
  have hfree : q.timer 1 = none := hframe 1 (by decide) (by simp)
  obtain ⟨q', hst', hpresent', -⟩ :=
    hinv.exists_request trivial () 2 (show (0 : ℤ) ≤ 5 by decide) 10 hfree
  obtain ⟨l', hinv'⟩ := hinv.step hst'
  obtain ⟨r, q'', l'', hcancel, -⟩ := hinv'.holds.cancel () 1 10
  have hreturns : Returns (TimerMem.eventCancelTimer · q' () 1 10) (r, q'') := ⟨_, hcancel⟩
  have hiff := (hinv'.cancel hreturns).1
  refine ⟨_, _, ⟨_, rfl, (LTS.Path.single hst).snoc hst'⟩, rfl, (r, q''), hreturns, ?_⟩
  refine not_le.1 fun hle => hiff.1 hle ?_
  simp only [hpresent', hpresent, TimerSpec.lookUp, TimerSpec.request, TimerSpec.clear]
  decide

end Nowra
