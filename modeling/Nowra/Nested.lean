import Nowra.Iostuff
import Nowra.Timers

/-!
# An event loop inside another

`event_wait` counts the calls that are past `epoll_wait` in `nested`, from `-1` on, and panics when
it finds the count above zero. A callback may call `event_wait` again, on any loop, and while it
runs the rest of the program may change the timers and the tables in any way.

In every run `nested` is one less than the number of calls that are past `epoll_wait`
(`counted_of_run`). So a call that is not nested never panics, and a call from a callback of two or
more calls always does. But a call from a callback of the only one goes on to dispatch. The refusal
fails when such a call is past `epoll_wait`, and at no other move (`refuses_iff`).
-/

namespace Nowra

/-! ## Calls of `event_wait` -/

/-- Where a call of `event_wait` is. -/
inductive WaitPhase
  | blocked
  /-- `epoll_wait` has returned, and the loop over the timers runs. -/
  | timers (eventCount : ℕ)
  /-- The callback of the timer at an address runs. -/
  | timerCallback (eventCount a : ℕ)
  /-- The loop over the events is at `j`. -/
  | events (eventCount j : ℕ)
  /-- The callback of event `j` runs. -/
  | eventCallback (eventCount j : ℕ)
  deriving DecidableEq

/-- A callback of the call runs. -/
def WaitPhase.InCallback : WaitPhase → Prop
  | timerCallback _ _ | eventCallback _ _ => True
  | blocked | timers _ | events _ _ => False

/-- A call of `event_wait`, on the loop at an address. -/
structure WaitCall where
  evlp : ℕ
  phase : WaitPhase

/-- How the process ends. -/
inductive LoopAbort
  /-- `event_wait: event no init.` -/
  | eventNoInit
  /-- `event_loop: epoll_wait: %s` -/
  | epollWait (errno : ℤ)
  /-- `event_loop: recursive call` -/
  | recursiveCall
  | panic (p : Panic)
  /-- A null pointer is called. -/
  | nullCallback
  deriving DecidableEq

/-- A loop, with the array that `epoll_wait` writes. -/
structure LoopMem (K κ γ : Type) extends EventLoop K κ γ where
  epEvents : ℕ → EpollEvent

/-- What `epoll_wait` writes to the array. -/
def storeEvents (epEvents : ℕ → EpollEvent) (events : List EpollEvent) (j : ℕ) : EpollEvent :=
  events[j]?.getD (epEvents j)

/-- The program. The calls of `event_wait` that have not returned are given with the last one
first. -/
structure LoopRun (K κ γ : Type) where
  /-- `nested` -/
  nested : ℤ
  timers : TimerMem κ γ
  loops : ℕ → LoopMem K κ γ
  calls : List WaitCall
  abort : Option LoopAbort

/-- Code outside `event_wait` runs. -/
def OutsideRuns : List WaitCall → Prop
  | [] => True
  | call :: _ => call.phase.InCallback

/-- What happens to the program. -/
inductive NestLabel (K κ γ : Type)
  /-- Code outside `event_wait`. -/
  | other (timers : TimerMem κ γ) (loops : ℕ → LoopMem K κ γ)
  /-- `event_wait` is called, and looks at the clock. Nothing is a null pointer. -/
  | wait (evlp : Option ℕ) (delay now now' : ℤ)
  /-- `epoll_wait` returns `-1`. -/
  | failed (errno : ℤ)
  /-- `epoll_wait` returns a count. -/
  | ready (events : List EpollEvent) (now : ℤ)
  /-- The loop over the timers looks at the first one. -/
  | timer
  /-- The loop over the events takes a turn. -/
  | event
  /-- A callback returns. -/
  | returned

namespace LoopRun

variable {K κ γ : Type}

/-- The process ends. -/
def abortWith (s : LoopRun K κ γ) (reason : LoopAbort) : LoopRun K κ γ :=
  { s with abort := some reason }

/-- `EINTR` ends a call, and another error the process. -/
def waitFailed (s : LoopRun K κ γ) (calls : List WaitCall) (errno : ℤ) : LoopRun K κ γ :=
  if errno ≠ eintr then s.abortWith (.epollWait errno) else { s with calls := calls }

/-- The code from `epoll_wait` to the loop over the timers. -/
def waitReady (s : LoopRun K κ γ) (evlp : ℕ) (calls : List WaitCall) (events : List EpollEvent)
    (now : ℤ) : LoopRun K κ γ :=
  let loop := s.loops evlp
  let loop := { loop with epEvents := storeEvents loop.epEvents events }
  let s := { s with loops := Function.update s.loops evlp loop }
  let nested := s.nested
  let s := { s with nested := nested + 1 }
  if nested > 0 then s.abortWith .recursiveCall
  else { s with
    timers := { s.timers with present := now }
    calls := ⟨evlp, .timers events.length⟩ :: calls }

/-- A turn of the loop over the events. -/
def waitEvent (s : LoopRun K κ γ) (evlp : ℕ) (calls : List WaitCall) (eventCount j : ℕ) :
    LoopRun K κ γ :=
  if j < eventCount then
    match eventCallback (s.loops evlp).toEventLoop ((s.loops evlp).epEvents j) with
    | .error p => s.abortWith (.panic p)
    | .ok none => { s with calls := ⟨evlp, .events eventCount (j + 1)⟩ :: calls }
    | .ok (some (none, _)) => s.abortWith .nullCallback
    | .ok (some (some _, _)) => { s with calls := ⟨evlp, .eventCallback eventCount j⟩ :: calls }
  else { s with nested := s.nested - 1, calls := calls }

end LoopRun

variable {K κ γ : Type}

/-- A move of the program. -/
inductive NestStep (s : LoopRun K κ γ) : NestLabel K κ γ → LoopRun K κ γ → Prop
  | other {timers : TimerMem κ γ} {loops : ℕ → LoopMem K κ γ} (hrun : s.abort = none)
      (hout : OutsideRuns s.calls) :
      NestStep s (.other timers loops) { s with timers := timers, loops := loops }
  | noInit {delay now now' : ℤ} (hrun : s.abort = none) (hout : OutsideRuns s.calls) :
      NestStep s (.wait none delay now now') (s.abortWith .eventNoInit)
  | wait {evlp : ℕ} {delay now now' : ℤ} {r : ℤ × TimerMem κ γ} (hrun : s.abort = none)
      (hout : OutsideRuns s.calls) (h : s.timers.eventWaitDelay delay now now' = .ok r) :
      NestStep s (.wait (some evlp) delay now now')
        { s with timers := r.2, calls := ⟨evlp, .blocked⟩ :: s.calls }
  | failed {evlp : ℕ} {calls : List WaitCall} {errno : ℤ} (hrun : s.abort = none)
      (hcalls : s.calls = ⟨evlp, .blocked⟩ :: calls) :
      NestStep s (.failed errno) (s.waitFailed calls errno)
  | ready {evlp : ℕ} {calls : List WaitCall} {events : List EpollEvent} {now : ℤ}
      (hrun : s.abort = none) (hcalls : s.calls = ⟨evlp, .blocked⟩ :: calls) :
      NestStep s (.ready events now) (s.waitReady evlp calls events now)
  | timer {evlp n : ℕ} {calls : List WaitCall} {x : ℕ × EventTimer κ γ × TimerMem κ γ}
      (hrun : s.abort = none) (hcalls : s.calls = ⟨evlp, .timers n⟩ :: calls)
      (h : s.timers.eventFirstTimer = .ok (some x)) :
      NestStep s .timer
        { s with timers := x.2.2, calls := ⟨evlp, .timerCallback n x.1⟩ :: calls }
  | timersDone {evlp n : ℕ} {calls : List WaitCall} (hrun : s.abort = none)
      (hcalls : s.calls = ⟨evlp, .timers n⟩ :: calls) (h : s.timers.eventFirstTimer = .ok none) :
      NestStep s .timer { s with calls := ⟨evlp, .events n 0⟩ :: calls }
  | event {evlp n j : ℕ} {calls : List WaitCall} (hrun : s.abort = none)
      (hcalls : s.calls = ⟨evlp, .events n j⟩ :: calls) :
      NestStep s .event (s.waitEvent evlp calls n j)
  | timerReturned {evlp n a : ℕ} {calls : List WaitCall} {q : TimerMem κ γ} (hrun : s.abort = none)
      (hcalls : s.calls = ⟨evlp, .timerCallback n a⟩ :: calls) (h : s.timers.freeTimer a = .ok q) :
      NestStep s .returned { s with timers := q, calls := ⟨evlp, .timers n⟩ :: calls }
  | eventReturned {evlp n j : ℕ} {calls : List WaitCall} (hrun : s.abort = none)
      (hcalls : s.calls = ⟨evlp, .eventCallback n j⟩ :: calls) :
      NestStep s .returned { s with calls := ⟨evlp, .events n (j + 1)⟩ :: calls }

/-- Any program with event loops, before its first call of `event_wait`. -/
def nestSystem (K κ γ : Type) : LTS (LoopRun K κ γ) (NestLabel K κ γ) where
  init s := s.nested = -1 ∧ s.calls = [] ∧ s.abort = none
  step := NestStep

/-! ## Refusal -/

/-- The process has ended with the panic for a recursive call. -/
def LoopRun.Refused (s : LoopRun K κ γ) : Prop :=
  s.abort = some .recursiveCall ∧ ∀ label t, ¬(nestSystem K κ γ).step s label t

/-- A call whose `epoll_wait` returns a count, with another call active, panics at once, and the
panic is for no other call. -/
structure Refuses (m : LoopRun K κ γ × NestLabel K κ γ × LoopRun K κ γ) : Prop where
  nested : ∀ events now, m.2.1 = .ready events now → 2 ≤ m.1.calls.length → m.2.2.Refused
  outermost : m.2.2.abort = some .recursiveCall →
    (∃ events now, m.2.1 = .ready events now) ∧ 2 ≤ m.1.calls.length

/-- A call that was made from a callback of the only other active call is past `epoll_wait`. -/
def ReentersOnce (m : LoopRun K κ γ × NestLabel K κ γ × LoopRun K κ γ) : Prop :=
  (∃ events now, m.2.1 = .ready events now) ∧ m.1.calls.length = 2

/-! ## The count -/

/-- The number of the calls that are past `epoll_wait`. -/
def pastEpollWait (calls : List WaitCall) : ℕ := calls.countP (·.phase ≠ .blocked)

section Calls

variable {evlp : ℕ} {calls : List WaitCall} {phase : WaitPhase}

theorem pastEpollWait_blocked : pastEpollWait (⟨evlp, .blocked⟩ :: calls) = pastEpollWait calls :=
  List.countP_cons_of_neg (by simp)

theorem pastEpollWait_cons (h : phase ≠ .blocked) :
    pastEpollWait (⟨evlp, phase⟩ :: calls) = pastEpollWait calls + 1 :=
  List.countP_cons_of_pos (by simpa using h)

theorem InCallback.ne_blocked (h : phase.InCallback) : phase ≠ .blocked := by
  rintro rfl
  exact h

theorem pastEpollWait_callbacks (h : ∀ call ∈ calls, call.phase.InCallback) :
    pastEpollWait calls = calls.length :=
  List.countP_eq_length.2 fun call hc => by simpa using InCallback.ne_blocked (h call hc)

end Calls

variable {s t : LoopRun K κ γ}

/-- The calls behind the last one are in a callback, and `nested` counts those that are past
`epoll_wait`, from `-1` on. -/
structure Counted (s : LoopRun K κ γ) : Prop where
  callbacks : ∀ call ∈ s.calls.tail, call.phase.InCallback
  nested : s.nested = pastEpollWait s.calls - 1

/-- With the last call blocked, `nested` is one less than the number of the others. -/
theorem Counted.nested_blocked (h : Counted s) {evlp : ℕ} {calls : List WaitCall}
    (hcalls : s.calls = ⟨evlp, .blocked⟩ :: calls) : s.nested = calls.length - 1 := by
  have htail : ∀ call ∈ calls, call.phase.InCallback := by
    have hc := h.callbacks
    rwa [hcalls] at hc
  rw [h.nested, hcalls, pastEpollWait_blocked, pastEpollWait_callbacks htail]

/-- The last call is in another phase. -/
theorem Counted.rephase (h : Counted s) {evlp : ℕ} {calls : List WaitCall}
    {phase phase' : WaitPhase} (hcalls : s.calls = ⟨evlp, phase⟩ :: calls)
    (hphase : phase ≠ .blocked) (hphase' : phase' ≠ .blocked)
    (ht : t.calls = ⟨evlp, phase'⟩ :: calls) (hnested : t.nested = s.nested) : Counted t := by
  have htail := h.callbacks
  rw [hcalls] at htail
  refine ⟨by rwa [ht], ?_⟩
  rw [hnested, h.nested, hcalls, ht, pastEpollWait_cons hphase, pastEpollWait_cons hphase']

theorem Counted.of_eq (h : Counted s) (hcalls : t.calls = s.calls) (hnested : t.nested = s.nested) :
    Counted t :=
  ⟨hcalls ▸ h.callbacks, by rw [hnested, hcalls, h.nested]⟩

/-- A call is made. -/
theorem Counted.push (h : Counted s) (hout : OutsideRuns s.calls) {evlp : ℕ}
    (ht : t.calls = ⟨evlp, .blocked⟩ :: s.calls) (hnested : t.nested = s.nested) : Counted t := by
  refine ⟨fun call hc => ?_, by rw [hnested, h.nested, ht, pastEpollWait_blocked]⟩
  rw [ht, List.tail_cons] at hc
  have hcallbacks := h.callbacks
  cases hcalls : s.calls with
  | nil =>
    rw [hcalls] at hc
    cases hc
  | cons first calls =>
    rw [hcalls] at hc hout hcallbacks
    rcases List.mem_cons.1 hc with rfl | hc
    · exact hout
    · exact hcallbacks call hc

/-- A call returns. -/
theorem Counted.pop (h : Counted s) {evlp : ℕ} {phase : WaitPhase} {calls : List WaitCall}
    (hcalls : s.calls = ⟨evlp, phase⟩ :: calls) (ht : t.calls = calls)
    (hnested : t.nested = pastEpollWait calls - 1) : Counted t := by
  have htail : ∀ call ∈ calls, call.phase.InCallback := by
    have hc := h.callbacks
    rwa [hcalls] at hc
  rw [← ht] at htail hnested
  exact ⟨fun call hc => htail call (List.mem_of_mem_tail hc), hnested⟩

/-- `EINTR` ends a call that is not counted. -/
theorem Counted.waitFailed (h : Counted s) (hrun : s.abort = none) {evlp : ℕ}
    {calls : List WaitCall} (hcalls : s.calls = ⟨evlp, .blocked⟩ :: calls) (errno : ℤ) :
    ((s.waitFailed calls errno).abort = none → Counted (s.waitFailed calls errno)) ∧
      (s.waitFailed calls errno).abort ≠ some .recursiveCall := by
  unfold LoopRun.waitFailed
  split
  · exact ⟨fun habort => (by cases habort), fun habort => (by cases habort)⟩
  · refine ⟨fun _ => h.pop hcalls rfl ?_, fun habort => ?_⟩
    · rw [← @pastEpollWait_blocked evlp, ← hcalls]
      exact h.nested
    · cases hrun.symm.trans habort

/-- The count refuses a call if and only if two calls or more are active behind it. -/
theorem Counted.waitReady (h : Counted s) (hrun : s.abort = none) {evlp : ℕ}
    {calls : List WaitCall} (hcalls : s.calls = ⟨evlp, .blocked⟩ :: calls)
    (events : List EpollEvent) (now : ℤ) :
    ((s.waitReady evlp calls events now).abort = none →
      Counted (s.waitReady evlp calls events now)) ∧
      ((s.waitReady evlp calls events now).abort = some .recursiveCall ↔ 2 ≤ calls.length) := by
  have hnested := h.nested_blocked hcalls
  have htail : ∀ call ∈ calls, call.phase.InCallback := by
    have hc := h.callbacks
    rwa [hcalls] at hc
  unfold LoopRun.waitReady
  by_cases hpos : s.nested > 0
  · simp only [if_pos hpos]
    exact ⟨fun habort => (by cases habort), iff_of_true rfl (by omega)⟩
  · simp only [if_neg hpos]
    refine ⟨fun _ => ⟨htail, ?_⟩, iff_of_false (fun habort => ?_) (by omega)⟩
    · rw [pastEpollWait_cons (by simp), pastEpollWait_callbacks htail, Nat.cast_succ,
        add_sub_cancel_right]
      exact (congrArg (· + 1) hnested).trans (sub_add_cancel ..)
    · cases hrun.symm.trans habort

/-- A turn of the loop over the events keeps the count. -/
theorem Counted.waitEvent (h : Counted s) (hrun : s.abort = none) {evlp n j : ℕ}
    {calls : List WaitCall} (hcalls : s.calls = ⟨evlp, .events n j⟩ :: calls) :
    ((s.waitEvent evlp calls n j).abort = none → Counted (s.waitEvent evlp calls n j)) ∧
      (s.waitEvent evlp calls n j).abort ≠ some .recursiveCall := by
  have hkept : s.abort ≠ some .recursiveCall := by simp [hrun]
  unfold LoopRun.waitEvent
  split
  · split
    · exact ⟨fun habort => (by cases habort), fun habort => (by cases habort)⟩
    · exact ⟨fun _ => h.rephase hcalls (by simp) (by simp) rfl rfl, hkept⟩
    · exact ⟨fun habort => (by cases habort), fun habort => (by cases habort)⟩
    · exact ⟨fun _ => h.rephase hcalls (by simp) (by simp) rfl rfl, hkept⟩
  · refine ⟨fun _ => h.pop hcalls rfl ?_, hkept⟩
    have hnested := h.nested
    rw [hcalls, pastEpollWait_cons (by simp)] at hnested
    simp only [hnested]
    omega

/-- A move keeps the count, and ends in the panic if and only if a call is past `epoll_wait` with
two others active. -/
theorem Counted.step (h : Counted s) {label : NestLabel K κ γ} (hst : NestStep s label t) :
    (t.abort = none → Counted t) ∧ (t.abort = some .recursiveCall ↔
      (∃ events now, label = .ready events now) ∧ 3 ≤ s.calls.length) := by
  have hno : ∀ {u : LoopRun K κ γ}, u.abort ≠ some .recursiveCall →
      (∀ events now, label ≠ .ready events now) →
      (u.abort = some .recursiveCall ↔
        (∃ events now, label = .ready events now) ∧ 3 ≤ s.calls.length) :=
    fun hu hl => iff_of_false hu fun ⟨⟨events, now, he⟩, _⟩ => hl events now he
  cases hst with
  | other hrun hout => exact ⟨fun _ => h.of_eq rfl rfl, hno (by simp [hrun]) (by simp)⟩
  | noInit hrun hout =>
    exact ⟨fun habort => (by cases habort), hno (by simp [LoopRun.abortWith]) (by simp)⟩
  | wait hrun hout hr => exact ⟨fun _ => h.push hout rfl rfl, hno (by simp [hrun]) (by simp)⟩
  | failed hrun hcalls =>
    obtain ⟨hcounted, habort⟩ := h.waitFailed hrun hcalls _
    exact ⟨hcounted, hno habort (by simp)⟩
  | @ready evlp calls events now hrun hcalls =>
    obtain ⟨hcounted, habort⟩ := h.waitReady hrun hcalls events now
    refine ⟨hcounted, habort.trans ?_⟩
    rw [hcalls, List.length_cons]
    exact ⟨fun hle => ⟨⟨_, _, rfl⟩, by omega⟩, fun hle => by omega⟩
  | timer hrun hcalls hr =>
    exact ⟨fun _ => h.rephase hcalls (by simp) (by simp) rfl rfl, hno (by simp [hrun]) (by simp)⟩
  | timersDone hrun hcalls hr =>
    exact ⟨fun _ => h.rephase hcalls (by simp) (by simp) rfl rfl, hno (by simp [hrun]) (by simp)⟩
  | event hrun hcalls =>
    obtain ⟨hcounted, habort⟩ := h.waitEvent hrun hcalls
    exact ⟨hcounted, hno habort (by simp)⟩
  | timerReturned hrun hcalls hr =>
    exact ⟨fun _ => h.rephase hcalls (by simp) (by simp) rfl rfl, hno (by simp [hrun]) (by simp)⟩
  | eventReturned hrun hcalls =>
    exact ⟨fun _ => h.rephase hcalls (by simp) (by simp) rfl rfl, hno (by simp [hrun]) (by simp)⟩

/-- Every move starts while the process runs. -/
theorem NestStep.abort {label : NestLabel K κ γ} (hst : NestStep s label t) : s.abort = none := by
  cases hst <;> assumption

/-- In every run the count is right before each move. -/
theorem counted_of_run {tr : List (LoopRun K κ γ × NestLabel K κ γ × LoopRun K κ γ)}
    (h : (nestSystem K κ γ).Run tr t) {m : LoopRun K κ γ × NestLabel K κ γ × LoopRun K κ γ}
    (hm : m ∈ tr) : Counted m.1 ∧ NestStep m.1 m.2.1 m.2.2 := by
  have hstep : NestStep m.1 m.2.1 m.2.2 := by
    obtain ⟨s, -, hp⟩ := h
    exact hp.step_of_mem hm
  have hinv := (h.invariant (P := fun s => s.abort = none → Counted s) ?_ ?_).2 m hm
  · exact ⟨hinv.1 hstep.abort, hstep⟩
  · rintro s ⟨hnested, hcalls, -⟩ -
    exact ⟨by simp [hcalls], by rw [hnested, hcalls]; rfl⟩
  · exact fun s label u hs hst => ((hs hst.abort).step hst).1

/-- A recursive call is refused, in every move of a run, unless it reenters the only call that is
active. -/
theorem refuses_iff {tr : List (LoopRun K κ γ × NestLabel K κ γ × LoopRun K κ γ)}
    (h : (nestSystem K κ γ).Run tr t) : ∀ m ∈ tr, Refuses m ↔ ¬ReentersOnce m := by
  intro m hm
  obtain ⟨hcounted, hst⟩ := counted_of_run h hm
  have hiff := (hcounted.step hst).2
  constructor
  · rintro hrefuses ⟨⟨events, now, hlabel⟩, htwo⟩
    have hthree := hiff.1 (hrefuses.nested events now hlabel (by omega)).1
    omega
  · intro hnot
    refine ⟨fun events now hlabel htwo => ?_, fun habort => ?_⟩
    · have hne : m.1.calls.length ≠ 2 := fun heq => hnot ⟨⟨events, now, hlabel⟩, heq⟩
      have habort := hiff.2 ⟨⟨events, now, hlabel⟩, by omega⟩
      exact ⟨habort, fun label u hu => by simp [NestStep.abort hu] at habort⟩
    · obtain ⟨hlabel, hthree⟩ := hiff.1 habort
      exact ⟨hlabel, by omega⟩

/-- A program with a loop that reads descriptor 0, before its first call. -/
def oneReader : LoopRun Unit Unit ℕ where
  nested := -1
  timers := timerMemInit
  loops _ := ⟨⟨0, 1, fun _ => ⟨eventRead, some (), none, some 0⟩, ()⟩, fun _ => ⟨0, ⟨true, false⟩⟩⟩
  calls := []
  abort := none

/-- One more move. -/
theorem path_move {s t u : LoopRun K κ γ}
    {tr : List (LoopRun K κ γ × NestLabel K κ γ × LoopRun K κ γ)}
    (hp : (nestSystem K κ γ).Path s tr t) (label : NestLabel K κ γ)
    (hst : NestStep t label u) : (nestSystem K κ γ).Path s (tr ++ [(t, label, u)]) u :=
  hp.snoc hst

/-- A call from the callback of a call from the callback of a call. The second goes on to dispatch,
the third is refused. -/
theorem refuses_iff_nested : ∃ (t : LoopRun Unit Unit ℕ)
    (tr : List (LoopRun Unit Unit ℕ × NestLabel Unit Unit ℕ × LoopRun Unit Unit ℕ)),
    (nestSystem Unit Unit ℕ).Run tr t ∧ tr.map (fun m => m.2.1) =
      [.wait (some 0) 5 100 100, .ready [⟨0, ⟨true, false⟩⟩] 100, .timer, .event,
        .wait (some 0) 5 100 100, .ready [⟨0, ⟨true, false⟩⟩] 100, .timer, .event,
        .wait (some 0) 5 100 100, .ready [] 100] ∧
    t.abort = some .recursiveCall ∧ (∃ m ∈ tr, m.1.calls.length = 2 ∧ ¬Refuses m) ∧
    ∃ m ∈ tr, m.1.calls.length = 3 ∧ Refuses m := by
  have hp₁ := path_move (path_move (path_move (path_move (.nil (s := oneReader))
    (.wait (some 0) 5 100 100) (.wait rfl trivial rfl))
    (.ready [⟨0, ⟨true, false⟩⟩] 100) (.ready rfl rfl)) .timer (.timersDone rfl rfl rfl))
    .event (.event rfl rfl)
  have hp₂ := path_move (path_move (path_move (path_move hp₁
    (.wait (some 0) 5 100 100) (.wait rfl trivial rfl))
    (.ready [⟨0, ⟨true, false⟩⟩] 100) (.ready rfl rfl)) .timer (.timersDone rfl rfl rfl))
    .event (.event rfl rfl)
  have hp := path_move (path_move hp₂ (.wait (some 0) 5 100 100) (.wait rfl trivial rfl))
    (.ready [] 100) (.ready rfl rfl)
  obtain ⟨t, tr, hrun, hlabels, habort, hactive⟩ : ∃ t tr, (nestSystem Unit Unit ℕ).Run tr t ∧
      tr.map (fun m => m.2.1) = [.wait (some 0) 5 100 100, .ready [⟨0, ⟨true, false⟩⟩] 100, .timer,
        .event, .wait (some 0) 5 100 100, .ready [⟨0, ⟨true, false⟩⟩] 100, .timer, .event,
        .wait (some 0) 5 100 100, .ready [] 100] ∧
      t.abort = some .recursiveCall ∧ (tr.map fun m => (m.1.calls.length, m.2.1)).drop 5 =
        [(2, .ready [⟨0, ⟨true, false⟩⟩] 100), (2, .timer), (2, .event),
          (2, .wait (some 0) 5 100 100), (3, .ready [] 100)] :=
    ⟨_, _, ⟨oneReader, ⟨rfl, rfl, rfl⟩, hp⟩, rfl, rfl, rfl⟩
  have hmoves : ∀ x ∈ (tr.map fun m => (m.1.calls.length, m.2.1)).drop 5,
      ∃ m ∈ tr, (m.1.calls.length, m.2.1) = x := fun x hx =>
    List.mem_map.1 (List.mem_of_mem_drop hx)
  rw [hactive] at hmoves
  obtain ⟨m, hm, heq⟩ := hmoves (2, .ready [⟨0, ⟨true, false⟩⟩] 100) (by simp)
  obtain ⟨m', hm', heq'⟩ := hmoves (3, .ready [] 100) (by simp)
  obtain ⟨htwo, hready⟩ := Prod.mk.inj heq
  obtain ⟨hthree, -⟩ := Prod.mk.inj heq'
  refine ⟨t, tr, hrun, hlabels, habort, ⟨m, hm, htwo, fun hrefuses => ?_⟩, m', hm', hthree, ?_⟩
  · exact (refuses_iff hrun m hm).1 hrefuses ⟨⟨_, _, hready⟩, htwo⟩
  · exact (refuses_iff hrun m' hm').2 fun hre => absurd (hthree.symm.trans hre.2) (by decide)

/-- A call from the callback of the only one that is active is not refused. -/
theorem not_refuses : ∃ (t : LoopRun Unit Unit ℕ)
    (tr : List (LoopRun Unit Unit ℕ × NestLabel Unit Unit ℕ × LoopRun Unit Unit ℕ)),
    (nestSystem Unit Unit ℕ).Run tr t ∧ tr.map (fun m => m.2.1) =
      [.wait (some 0) 5 100 100, .ready [⟨0, ⟨true, false⟩⟩] 100, .timer, .event,
        .wait (some 0) 5 100 100, .ready [] 100] ∧
    t.abort = none ∧ t.calls.map WaitCall.phase = [.timers 0, .eventCallback 1 0] ∧
    ∃ m ∈ tr, ¬Refuses m := by
  have hp := path_move (path_move (path_move (path_move (path_move (path_move
    (.nil (s := oneReader)) (.wait (some 0) 5 100 100) (.wait rfl trivial rfl))
    (.ready [⟨0, ⟨true, false⟩⟩] 100) (.ready rfl rfl)) .timer (.timersDone rfl rfl rfl))
    .event (.event rfl rfl)) (.wait (some 0) 5 100 100) (.wait rfl trivial rfl))
    (.ready [] 100) (.ready rfl rfl)
  refine ⟨_, _, ⟨oneReader, ⟨rfl, rfl, rfl⟩, hp⟩, rfl, rfl, rfl, _,
    List.mem_append_right _ (List.mem_singleton.2 rfl), fun hrefuses => ?_⟩
  obtain ⟨habort, -⟩ := hrefuses.nested _ _ rfl (by decide)
  cases habort

end Nowra
