import Nowra.Firing
import Nowra.Iostuff

/-!
# How long a wait is

`event_wait` waits for no longer than its delay, and no longer than the time left to the earliest
timer (`waitMillis`). It computes the time left in seconds as an `int`, takes a negative number for
waiting for ever, and gives `epoll_wait` the product with 1000. `write_wait` and `read_wait` give
such a product to `poll`.

The product of a delay that `event_request_timer` or `read_wait` accepts need not be an `int`. The
waits are as long as they should be if and only if they end before `2^31` milliseconds and the
earliest timer is not overdue by more than `2^31` seconds (`waits_right_iff`).
-/

namespace Nowra

variable {κ γ : Type}

/-- A value of type `int`. -/
def IsInt (n : ℤ) : Prop := -2 ^ 31 ≤ n ∧ n < 2 ^ 31

theorem intOf_eq_iff {n : ℤ} : intOf n = n ↔ IsInt n := by
  unfold intOf IsInt
  omega

theorem isInt_intOf (n : ℤ) : IsInt (intOf n) := by
  unfold intOf IsInt
  omega

/-! ## The timeout of `epoll_wait` -/

/-- A number of seconds as a timeout in milliseconds. A negative one is for ever. -/
def millisOf (seconds : ℤ) : ℤ := if seconds < 0 then -1 else intOf (seconds * 1000)

/-- What is multiplied, as a number. -/
def millisInts (seconds : ℤ) : List ℤ := if seconds < 0 then [] else [seconds * 1000]

/-- A timeout, and the numbers that are converted to an `int` on the way to it. -/
structure EpollTimeout where
  timeout : ℤ
  ints : List ℤ

namespace TimerMem

/-- The difference that is assigned to `select_delay`, if there is a timer. -/
def timeLeft (q : TimerMem κ γ) (now now' : ℤ) : Except Fault (List ℤ) := do
  let q := q.lookUp now
  match ← q.succ none with
  | none => pure []
  | some a => do
    let timer ← q.read a
    pure [timer.due - now']

/-- What `event_wait` gives to `epoll_wait`, the clock reading `now` and then `now'`. -/
def eventWaitTimeout (q : TimerMem κ γ) (delay now now' : ℤ) : Except Fault EpollTimeout := do
  let left ← q.timeLeft now now'
  let (selectDelay, _) ← q.eventWaitDelay delay now now'
  pure ⟨millisOf selectDelay, left ++ millisInts selectDelay⟩

end TimerMem

/-! ## The timeout of `poll` -/

/-- The timeouts of the calls of `poll` in the loop around it. -/
def pollTimeouts (timeout : ℤ) : List PollResult → List ℤ
  | .failed errno :: polls =>
    millisOf timeout :: if errno ≠ eintr then [] else pollTimeouts timeout polls
  | [] | .timedOut :: _ | .event _ :: _ => [millisOf timeout]

/-- The timeouts that `write_wait` gives to `poll`. -/
def writeWaitTimeouts (timeout : ℤ) (polls : List PollResult) : List ℤ := pollTimeouts timeout polls

/-- The timeouts that `read_wait` gives to `poll`. -/
def readWaitTimeouts (timeout : ℤ) (polls : List PollResult) : List ℤ := pollTimeouts timeout polls

/-! ## The right timeouts -/

/-- The pending pair that is due first is due at `due`. -/
def TimerSpec.IsNext (spec : TimerSpec κ γ) (due : ℤ) : Prop :=
  (∃ pair n, spec.pending pair = some (due, n)) ∧
    ∀ pair due' n, spec.pending pair = some (due', n) → due ≤ due'

/-- The milliseconds of a wait for `delay` seconds at most, if it is not negative, and for no more
than `left` seconds. -/
def waitMillis (delay left : ℤ) : ℤ := 1000 * max 0 (if delay ≥ 0 then min left delay else left)

/-- The timeout is for ever if there is nothing to wait for, and exact otherwise, and each number on
the way is an `int`. -/
structure EpollTimeout.Right (t : EpollTimeout) (spec : TimerSpec κ γ) (delay now : ℤ) : Prop where
  idle : (∀ pair, spec.pending pair = none) →
    if delay < 0 then t.timeout < 0 else t.timeout = 1000 * delay
  next : ∀ due, spec.IsNext due → t.timeout = waitMillis delay (due - now)
  ints : ∀ n ∈ t.ints, IsInt n

/-- Each timeout is exact and not negative. -/
def PollsRight (timeout : ℤ) (timeouts : List ℤ) : Prop :=
  ∀ t ∈ timeouts, t = 1000 * timeout ∧ 0 ≤ t

/-- The first timer is overdue for no more than `2^31` seconds, and if only it ends the wait, it
does before `2^31` milliseconds. A queue that `event_wait` empties is not missed. -/
def TimerRun.WaitFits (s : TimerRun κ γ) (delay now : ℤ) : Prop :=
  ∀ due, s.spec.IsNext due →
    if s.mem.present = 0 then 0 ≤ delay ∧ delay ≤ max 0 (due - now)
    else -2 ^ 31 ≤ due - now ∧ (delay < 0 → due - now ≤ 2147483)

/-! ## What the code computes -/

/-- What is assigned to `select_delay`. -/
def selectDelayOf (delay : ℤ) : Option ℤ → ℤ
  | none => delay
  | some left => if intOf left < 0 then 0 else if delay ≥ 0 ∧ intOf left > delay then delay
    else intOf left

theorem TimerMem.Holds.waitTimeout {q : TimerMem κ γ} {l : List (ℕ × EventTimer κ γ)}
    (h : q.Holds l) (delay now now' : ℤ) :
    q.eventWaitTimeout delay now now' =
      let left := (q.left l).head?.map fun x => x.2.due - now'
      .ok ⟨millisOf (selectDelayOf delay left),
        left.toList ++ millisInts (selectDelayOf delay left)⟩ := by
  obtain ⟨hready, -, -⟩ := h.lookUp now
  unfold eventWaitTimeout timeLeft eventWaitDelay
  generalize q.lookUp now = r at *
  generalize q.left l = m at *
  cases m with
  | nil => simp only [succ_eq hready.ring.seg.1]; rfl
  | cons x m =>
    have hx := hready.timer x (List.mem_cons_self ..)
    have hsucc := succ_eq hready.ring.seg.1
    simp only [hsucc, bind, Except.bind, read_eq hx]
    rfl

theorem isInt_of_mem_millisInts {seconds n : ℤ} (h : seconds * 1000 < 2 ^ 31)
    (hn : n ∈ millisInts seconds) : IsInt n := by
  unfold millisInts at hn
  split at hn
  · cases hn
  · obtain rfl := List.mem_singleton.1 hn
    exact ⟨by omega, h⟩

theorem millisOf_of_nonneg {seconds : ℤ} (h : 0 ≤ seconds) (hlt : seconds * 1000 < 2 ^ 31) :
    millisOf seconds = 1000 * seconds := by
  rw [millisOf, if_neg (by omega), intOf_eq (by omega) hlt, mul_comm]

theorem millisOf_of_neg {seconds : ℤ} (h : seconds < 0) : millisOf seconds = -1 := if_pos h

/-- What is assigned is right if the time left is an `int`. -/
theorem selectDelayOf_eq (delay : ℤ) {left : ℤ} (h : IsInt left) :
    selectDelayOf delay (some left) =
      max 0 (if delay ≥ 0 then min left delay else left) := by
  rw [selectDelayOf, intOf_eq_iff.2 h]
  split
  · rw [max_eq_left]
    split <;> omega
  · split
    · rw [if_pos (by omega)]
      omega
    · rw [max_eq_right]
      · split <;> omega
      · split <;> omega

/-- With a timer, when the timeout is exact and each number on the way is an `int`. -/
theorem timeout_iff {delay left : ℤ} (hdelay : delay < 0 ∨ 1000 * delay < 2 ^ 31)
    (hleft : left < 2 ^ 31) :
    (millisOf (selectDelayOf delay (some left)) = waitMillis delay left ∧
      ∀ n ∈ left :: millisInts (selectDelayOf delay (some left)), IsInt n) ↔
    -2 ^ 31 ≤ left ∧ (delay < 0 → left ≤ 2147483) := by
  constructor
  · rintro ⟨-, hints⟩
    have hint : IsInt left := hints left (List.mem_cons_self ..)
    refine ⟨hint.1, fun hneg => ?_⟩
    have hselect := selectDelayOf_eq delay hint
    rw [if_neg (by omega)] at hselect
    have hprod : IsInt (max 0 left * 1000) := by
      refine hints _ (List.mem_cons_of_mem _ ?_)
      rw [hselect, millisInts, if_neg (by omega)]
      exact List.mem_singleton.2 rfl
    have hlt := hprod.2
    omega
  · rintro ⟨hlow, hhigh⟩
    have hselect := selectDelayOf_eq delay ⟨hlow, hleft⟩
    have hlt : max 0 (if delay ≥ 0 then min left delay else left) * 1000 < 2 ^ 31 := by
      split <;> omega
    rw [hselect]
    refine ⟨millisOf_of_nonneg (le_max_left ..) hlt, fun n hn => ?_⟩
    rcases List.mem_cons.1 hn with rfl | hn
    · exact ⟨hlow, hleft⟩
    · exact isInt_of_mem_millisInts hlt hn

/-- Without the timer that there is, when the timeout is exact. -/
theorem emptied_iff {delay left : ℤ} (hdelay : delay < 0 ∨ 1000 * delay < 2 ^ 31) :
    millisOf delay = waitMillis delay left ↔ 0 ≤ delay ∧ delay ≤ max 0 left := by
  rw [waitMillis]
  rcases lt_or_ge delay 0 with hneg | hge
  · rw [millisOf_of_neg hneg]
    omega
  · rw [millisOf_of_nonneg hge (by omega), if_pos hge]
    omega

/-! ## The pending pairs -/

/-- The first timer of the queue is the next one that is due. -/
theorem TimerSpec.Agrees.isNext_iff {spec : TimerSpec κ γ} {l : List (ℕ × EventTimer κ γ)}
    (h : spec.Agrees (l.map Prod.snd)) {due : ℤ} :
    spec.IsNext due ↔ ∃ x, l.head? = some x ∧ x.2.due = due := by
  have hfirst : ∀ x l', l = x :: l' → spec.IsNext x.2.due := by
    rintro x l' rfl
    obtain ⟨n, hn⟩ := h.pending x.2 (List.mem_cons_self ..)
    refine ⟨⟨_, n, hn⟩, fun pair due' n' hp => ?_⟩
    rcases List.mem_cons.1 (h.mem pair due' n' hp) with heq | hmem
    · rw [← heq]
    · exact (List.rel_of_pairwise_cons h.sorted hmem).le
  constructor
  · rintro ⟨⟨pair, n, hp⟩, hmin⟩
    cases l with
    | nil => cases h.mem pair due n hp
    | cons x l' =>
      obtain ⟨⟨pair', n', hp'⟩, hmin'⟩ := hfirst x l' rfl
      exact ⟨x, rfl, le_antisymm (hmin' _ _ _ hp) (hmin _ _ _ hp')⟩
  · rintro ⟨x, hx, rfl⟩
    cases l with
    | nil => cases hx
    | cons y l' =>
      obtain rfl := Option.some.inj hx
      exact hfirst y l' rfl

theorem TimerSpec.Agrees.pending_none_iff {spec : TimerSpec κ γ} {l : List (ℕ × EventTimer κ γ)}
    (h : spec.Agrees (l.map Prod.snd)) : (∀ pair, spec.pending pair = none) ↔ l = [] := by
  constructor
  · intro hnone
    cases l with
    | nil => rfl
    | cons x l' =>
      obtain ⟨n, hn⟩ := h.pending x.2 (List.mem_cons_self ..)
      cases (hnone _).symm.trans hn
  · rintro rfl pair
    refine Option.eq_none_iff_forall_not_mem.2 fun x hx => ?_
    cases h.mem pair x.1 x.2 hx

/-- A request is made for an `int`, and not later than `clock`. -/
def TimerLabel.MadeBy (clock : ℤ) : TimerLabel κ γ → Prop
  | .request _ _ delay now => delay < 2 ^ 31 ∧ now ≤ clock
  | .cancel _ _ _ | .wait _ _ _ | .interrupted | .ready _ | .call _ _ | .returned | .timersDone
    | .eventsDone => True

/-- No pair is due later than an `int` from now. -/
def TimerSpec.DueBy (clock : ℤ) (spec : TimerSpec κ γ) : Prop :=
  ∀ pair due n, spec.pending pair = some (due, n) → due - clock < 2 ^ 31

theorem TimerSpec.DueBy.lookUp {clock : ℤ} {spec : TimerSpec κ γ} (h : spec.DueBy clock)
    (present : ℤ) : (spec.lookUp present).DueBy clock :=
  fun pair due n hp => h pair due n (TimerSpec.pending_of_lookUp hp).2

variable [DecidableEq κ] [DecidableEq γ]

theorem TimerSpec.DueBy.cancel {clock : ℤ} {spec : TimerSpec κ γ} (h : spec.DueBy clock)
    (pair : κ × γ) : (spec.cancel pair).DueBy clock :=
  fun pair' due n hp => h pair' due n (TimerSpec.pending_of_cancel hp).2

theorem TimerSpec.DueBy.request {clock delay now : ℤ} {spec : TimerSpec κ γ} (h : spec.DueBy clock)
    (hdelay : delay < 2 ^ 31) (hnow : now ≤ clock) (pair : κ × γ) :
    (spec.request pair (now + delay)).DueBy clock := by
  intro pair' due n hp
  rcases eq_or_ne pair' pair with rfl | hne
  · rw [TimerSpec.request_self] at hp
    cases hp
    omega
  · rw [TimerSpec.request_of_ne hne] at hp
    exact h pair' due n hp

theorem TimerRun.dueBy_next {clock : ℤ} {s : TimerRun κ γ} {label : TimerLabel κ γ}
    (h : s.spec.DueBy clock) (hlabel : label.MadeBy clock) :
    (s.nextSpec label).DueBy clock := by
  cases label with
  | request callback context delay now => exact (h.lookUp _).request hlabel.1 hlabel.2 _
  | cancel callback context now => exact (h.lookUp _).cancel _
  | wait delay now now' => exact h.lookUp _
  | call callback context => exact h.cancel _
  | interrupted => exact h
  | ready now => exact h
  | returned => exact h
  | timersDone => exact h
  | eventsDone => exact h

theorem TimerRun.dueBy_of_run {clock : ℤ} {s : TimerRun κ γ}
    {tr : List (TimerRun κ γ × TimerLabel κ γ × TimerRun κ γ)}
    (h : (timerSystem κ γ).Run tr s) (hclock : ∀ m ∈ tr, m.2.1.MadeBy clock) :
    s.spec.DueBy clock := by
  obtain ⟨s₀, rfl, hp⟩ := h
  refine (hp.invariant_of (P := fun s => s.spec.DueBy clock)
    (C := fun _ label => label.MadeBy clock) ?_ ?_ hclock).1
  · exact fun _ _ _ h => absurd h.symm (Option.some_ne_none _)
  · intro t label u ht hlabel hst
    rw [TimerStep.spec_eq hst]
    exact TimerRun.dueBy_next ht hlabel

/-! ## When the waits are right -/

omit [DecidableEq κ] [DecidableEq γ] in
/-- What `event_wait` gives to `epoll_wait` is right if and only if the wait fits. -/
theorem TimerRun.Inv.waitsRight_iff {s : TimerRun κ γ} {l : List (ℕ × EventTimer κ γ)}
    (hinv : s.Inv l) {delay now' : ℤ} (hdue : s.spec.DueBy now')
    (hdelay : delay < 0 ∨ 1000 * delay < 2 ^ 31) (now : ℤ) :
    (∃ t, s.mem.eventWaitTimeout delay now now' = .ok t ∧ t.Right s.spec delay now') ↔
      s.WaitFits delay now' := by
  have heq := hinv.holds.waitTimeout delay now now'
  have hnext (due : ℤ) : s.spec.IsNext due ↔ ∃ x, l.head? = some x ∧ x.2.due = due :=
    hinv.agrees.isNext_iff
  have hnone := hinv.agrees.pending_none_iff
  have hints : ∀ n ∈ millisInts delay, IsInt n := by
    rcases hdelay with hneg | hlt
    · rw [millisInts, if_pos hneg]
      simp
    · exact fun n hn => isInt_of_mem_millisInts (by omega) hn
  cases l with
  | nil =>
    -- nothing is pending
    have hno : ∀ due, ¬s.spec.IsNext due := fun due hd => by
      obtain ⟨x, hx, -⟩ := (hnext due).1 hd
      cases hx
    have hleft : s.mem.left ([] : List (ℕ × EventTimer κ γ)) = [] := by
      unfold TimerMem.left
      split <;> rfl
    rw [hleft] at heq
    refine iff_of_true ⟨_, heq, fun _ => ?_, fun due hd => absurd hd (hno due), hints⟩
      fun due hd => absurd hd (hno due)
    rcases lt_or_ge delay 0 with hneg | hge
    · rw [if_pos hneg]
      exact (millisOf_of_neg hneg).trans_lt (by decide)
    · rw [if_neg hge.not_gt]
      exact @millisOf_of_nonneg delay hge (by omega)
  | cons x l =>
    have hx : ∀ due, s.spec.IsNext due ↔ due = x.2.due := fun due => by
      rw [hnext]
      exact ⟨fun ⟨y, hy, hd⟩ => Option.some.inj hy ▸ hd.symm, fun hd => ⟨x, rfl, hd.symm⟩⟩
    have hidle : ¬∀ pair, s.spec.pending pair = none := fun h => List.cons_ne_nil x l (hnone.1 h)
    have hfits : s.WaitFits delay now' ↔ if s.mem.present = 0 then
        0 ≤ delay ∧ delay ≤ max 0 (x.2.due - now')
        else -2 ^ 31 ≤ x.2.due - now' ∧ (delay < 0 → x.2.due - now' ≤ 2147483) :=
      ⟨fun h => h _ ((hx _).2 rfl), fun h due hd => (hx due).1 hd ▸ h⟩
    have hright : ∀ t : EpollTimeout, t.Right s.spec delay now' ↔
        t.timeout = waitMillis delay (x.2.due - now') ∧ ∀ n ∈ t.ints, IsInt n := fun t =>
      ⟨fun h => ⟨h.next _ ((hx _).2 rfl), h.ints⟩,
        fun h => ⟨fun hp => absurd hp hidle, fun due hd => (hx due).1 hd ▸ h.1, h.2⟩⟩
    rw [hfits]
    simp only [heq, Except.ok.injEq, exists_eq_left', hright]
    by_cases hp : s.mem.present = 0
    · -- the queue is emptied, and the wait is as long as the delay
      have hleft : s.mem.left (x :: l) = [] := if_pos hp
      rw [hleft, if_pos hp]
      exact (and_iff_left hints).trans (emptied_iff hdelay)
    · have hleft : s.mem.left (x :: l) = x :: l := if_neg hp
      obtain ⟨n, hn⟩ := hinv.agrees.pending x.2 (List.mem_cons_self ..)
      rw [hleft, if_neg hp]
      exact timeout_iff hdelay (hdue _ _ _ hn)

/-- What `write_wait` and `read_wait` give to `poll` is right up to 2147483 seconds. -/
theorem pollsRight_iff {timeout : ℤ} (h : 0 ≤ timeout) (hint : timeout < 2 ^ 31)
    (polls : List PollResult) : PollsRight timeout (pollTimeouts timeout polls) ↔
      timeout ≤ 2147483 := by
  have hall : ∀ t ∈ pollTimeouts timeout polls, t = millisOf timeout := by
    induction polls with
    | nil => simp [pollTimeouts]
    | cons poll polls ih =>
      cases poll with
      | timedOut => simp [pollTimeouts]
      | event nval => simp [pollTimeouts]
      | failed errno =>
        unfold pollTimeouts
        split
        · simp
        · exact List.forall_mem_cons.2 ⟨rfl, ih⟩
  have hmem : millisOf timeout ∈ pollTimeouts timeout polls := by
    unfold pollTimeouts
    split <;> exact List.mem_cons_self ..
  constructor
  · intro hright
    obtain ⟨heq, -⟩ := hright _ hmem
    rw [millisOf, if_neg (by omega)] at heq
    have hlt := (isInt_intOf (timeout * 1000)).2
    omega
  · intro hle t ht
    rw [hall t ht, millisOf_of_nonneg h (by omega)]
    omega

/-- After any run in which the requests are made for an `int` and the clock does not go back,
`event_wait` waits as long as it should if and only if the wait fits, and `write_wait` and
`read_wait` do up to 2147483 seconds. -/
theorem waits_right_iff {s : TimerRun κ γ}
    {tr : List (TimerRun κ γ × TimerLabel κ γ × TimerRun κ γ)} (h : (timerSystem κ γ).Run tr s)
    {delay now' : ℤ} (hclock : ∀ m ∈ tr, m.2.1.MadeBy now')
    (hdelay : delay < 0 ∨ 1000 * delay < 2 ^ 31) (now : ℤ) :
    ((∃ t, s.mem.eventWaitTimeout delay now now' = .ok t ∧ t.Right s.spec delay now') ↔
      s.WaitFits delay now') ∧
    ∀ timeout, 0 ≤ timeout → timeout < 2 ^ 31 → ∀ polls,
      (PollsRight timeout (writeWaitTimeouts timeout polls) ↔ timeout ≤ 2147483) ∧
        (PollsRight timeout (readWaitTimeouts timeout polls) ↔ timeout ≤ 2147483) := by
  obtain ⟨l, hinv⟩ := TimerRun.inv_of_reach ⟨tr, h⟩
  exact ⟨hinv.waitsRight_iff (TimerRun.dueBy_of_run h hclock) hdelay now,
    fun timeout hnonneg hint polls =>
      ⟨pollsRight_iff hnonneg hint polls, pollsRight_iff hnonneg hint polls⟩⟩

/-- A pair is requested at time 100. -/
theorem exists_run_request {delay : ℤ} (hdelay : 0 ≤ delay) : ∃ (s : TimerRun Unit ℕ)
    (tr : List (TimerRun Unit ℕ × TimerLabel Unit ℕ × TimerRun Unit ℕ)),
    (timerSystem Unit ℕ).Run tr s ∧
    tr.map (fun m => m.2.1) = [.request () 1 delay 100] ∧
    s.mem.present = 100 ∧ ∀ due, s.spec.IsNext due ↔ due = 100 + delay := by
  have hinit : TimerRun.Inv (κ := Unit) (γ := ℕ) _ _ := TimerRun.inv_init
  obtain ⟨q, hst, hpresent, -⟩ := hinit.exists_request trivial () 1 hdelay 100
    (show timerMemInit.timer 0 = none from rfl)
  refine ⟨_, _, ⟨_, rfl, LTS.Path.single hst⟩, rfl, hpresent, fun due => ?_⟩
  have honly : ∀ pair due' n, (TimerSpec.request ⟨fun _ => none, 0⟩ ((), 1)
      (100 + delay)).pending pair = some (due', n) → due' = 100 + delay := by
    intro pair due' n hp
    rcases eq_or_ne pair ((), 1) with rfl | hne
    · rw [TimerSpec.request_self] at hp
      cases hp
      rfl
    · rw [TimerSpec.request_of_ne hne] at hp
      cases hp
  constructor
  · rintro ⟨⟨pair, n, hp⟩, -⟩
    exact honly pair due n hp
  · rintro rfl
    exact ⟨⟨((), 1), 0, TimerSpec.request_self ..⟩, fun pair due' n hp => (honly _ _ _ hp).ge⟩

/-- Four seconds before the timer is due, `event_wait` without a delay waits for 4000
milliseconds. -/
theorem waits_right_iff_four : ∃ (s : TimerRun Unit ℕ)
    (tr : List (TimerRun Unit ℕ × TimerLabel Unit ℕ × TimerRun Unit ℕ)),
    (timerSystem Unit ℕ).Run tr s ∧ tr.map (fun m => m.2.1) = [.request () 1 5 100] ∧
    ∃ t, s.mem.eventWaitTimeout (-1) 101 101 = .ok t ∧ t.timeout = 4000 := by
  obtain ⟨s, tr, hrun, hlabels, hpresent, hnext⟩ := exists_run_request (show (0 : ℤ) ≤ 5 by decide)
  have hclock : ∀ m ∈ tr, m.2.1.MadeBy 101 := fun m hm => by
    have hlabel : m.2.1 ∈ tr.map fun m => m.2.1 := List.mem_map_of_mem hm
    rw [hlabels] at hlabel
    obtain heq := List.mem_singleton.1 hlabel
    rw [heq]
    exact ⟨by decide, by decide⟩
  have hfits : s.WaitFits (-1) 101 := fun due hd => by
    obtain rfl := (hnext due).1 hd
    rw [hpresent]
    decide
  obtain ⟨t, ht, hright⟩ := (waits_right_iff hrun hclock (Or.inl (by decide)) 101).1.2 hfits
  exact ⟨s, tr, hrun, hlabels, t, ht, hright.next _ ((hnext _).2 rfl)⟩

/-- A timer is due in 2147484 seconds, and `event_wait` waits for ever. So does `read_wait` with
such a timeout. -/
theorem not_waits_right : (∃ (s : TimerRun Unit ℕ)
    (tr : List (TimerRun Unit ℕ × TimerLabel Unit ℕ × TimerRun Unit ℕ)),
    (timerSystem Unit ℕ).Run tr s ∧ tr.map (fun m => m.2.1) = [.request () 1 2147484 100] ∧
    s.spec.IsNext 2147584 ∧
    ∃ t, s.mem.eventWaitTimeout (-1) 100 100 = .ok t ∧ t.timeout < 0 ∧
      ¬t.Right s.spec (-1) 100) ∧
    ¬PollsRight 2147484 (readWaitTimeouts 2147484 []) := by
  constructor
  · obtain ⟨s, tr, hrun, hlabels, hpresent, hnext⟩ :=
      exists_run_request (show (0 : ℤ) ≤ 2147484 by decide)
    have hdue : s.spec.IsNext 2147584 := (hnext _).2 rfl
    obtain ⟨l, hinv⟩ := TimerRun.inv_of_reach ⟨tr, hrun⟩
    obtain ⟨x, hx, hxdue⟩ := hinv.agrees.isNext_iff.1 hdue
    have hleft : s.mem.left l = l := if_neg (by rw [hpresent]; decide)
    have heq := hinv.holds.waitTimeout (-1) 100 100
    rw [hleft, hx, Option.map_some, hxdue] at heq
    refine ⟨s, tr, hrun, hlabels, hdue, _, heq, by decide, fun hright => ?_⟩
    exact absurd (hright.next _ hdue) (by decide)
  · intro h
    exact absurd (h _ (List.mem_singleton.2 rfl)).2 (by decide)

end Nowra
