import Mathlib.Data.Set.Finite.Lattice
import Nowra.Events

/-!
# The dispatch of timers in one call of `event_wait`

`event_wait` takes the first timer off the queue while its time has come, and calls its callback,
which may request and cancel timers. A request reads the clock, and the loop compares the times
with this reading from then on.

The loop ends if and only if only finitely many of the callbacks that are called request a timer
whose time comes at a later reading of the clock in the loop (`timersPass_ends_iff`). A callback
that requests itself again with no delay keeps the loop going for ever.
-/

namespace Nowra

variable {κ γ : Type} [DecidableEq κ] [DecidableEq γ]

/-! ## The loop -/

/-- A call that a callback makes, the clock reading `now`. -/
inductive TimerCall (κ γ : Type)
  | request (callback : κ) (context : γ) (delay : ℕ) (now : ℤ)
  | cancel (callback : κ) (context : γ) (now : ℤ)

/-- What a call does to the queue. -/
def TimerCall.run (q : TimerQueue κ γ) : TimerCall κ γ → Except Panic (TimerQueue κ γ)
  | .request callback context delay now => do
    let r ← eventRequestTimer q callback context delay now
    pure r.2
  | .cancel callback context now => pure (eventCancelTimer q callback context now).2

/-- One turn of the loop, in which the callback makes the calls `calls`. Nothing if the loop
ends. -/
def dispatchTimer (calls : List (TimerCall κ γ)) (q : TimerQueue κ γ) :
    Except Panic (Option (TimerQueue κ γ)) :=
  match eventFirstTimer q with
  | none => pure none
  | some (_, q) => do
    let q ← calls.foldlM TimerCall.run q
    pure (some q)

/-- The queue before turn `n`, nothing if the loop has ended. The clock reads `now` when the loop
starts, and the callback of turn `n` makes the calls `calls n`. -/
def timersPass (calls : ℕ → List (TimerCall κ γ)) (q : TimerQueue κ γ) (now : ℤ) :
    ℕ → Except Panic (Option (TimerQueue κ γ))
  | 0 => pure (some { q with present := now })
  | n + 1 => do
    match ← timersPass calls q now n with
    | none => pure none
    | some q => dispatchTimer (calls n) q

/-! ## One call -/

omit [DecidableEq κ] [DecidableEq γ] in
theorem eventFirstTimer_eq_some {q q' : TimerQueue κ γ} {timer : EventTimer κ γ}
    (h : eventFirstTimer q = some (timer, q')) :
    timer.due ≤ q.present ∧ q.timers = timer :: q'.timers ∧ q'.present = q.present := by
  unfold eventFirstTimer at h
  split at h
  · cases h
  · rename_i htimers
    split at h
    · cases h
    · rename_i hdue
      cases h
      exact ⟨not_lt.1 hdue, htimers, rfl⟩

/-- The time of day after a call. -/
def TimerCall.present (present : ℤ) : TimerCall κ γ → ℤ
  | .request _ _ _ now => now
  | .cancel _ _ now => if present = 0 then now else present

/-- The call sets no timer that is due at such a time. -/
def TimerCall.Avoids (p : ℤ → Prop) : TimerCall κ γ → Prop
  | .request _ _ delay now => ¬p (now + delay)
  | .cancel _ _ _ => True

omit [DecidableEq κ] [DecidableEq γ] in
/-- The timers that are left if the time of day counts as not looked up. -/
theorem lookUp_sublist (q : TimerQueue κ γ) (now : ℤ) :
    (if q.present = 0 then eventTimeInit now else q).timers.Sublist q.timers := by
  split
  · exact List.nil_sublist _
  · exact List.Sublist.refl _

theorem eventCancelTimer_spec (q : TimerQueue κ γ) (callback : κ) (context : γ) (now : ℤ) :
    (eventCancelTimer q callback context now).2.timers.Sublist q.timers ∧
      (eventCancelTimer q callback context now).2.present =
        if q.present = 0 then now else q.present := by
  have hleft := lookUp_sublist q now
  have hpresent : (if q.present = 0 then eventTimeInit now else q).present =
      if q.present = 0 then now else q.present := by
    split
    · rfl
    · rfl
  unfold eventCancelTimer
  dsimp only
  split
  · exact ⟨hleft, hpresent⟩
  · exact ⟨List.eraseP_sublist.trans hleft, hpresent⟩

theorem eventRequestTimer_spec (q : TimerQueue κ γ) (callback : κ) (context : γ) (delay : ℕ)
    (now : ℤ) : ∃ r l, eventRequestTimer q callback context delay now = .ok r ∧
      r.2.timers.Perm (⟨now + delay, callback, context⟩ :: l) ∧ l.Sublist q.timers ∧
      r.2.present = now := by
  have hleft := lookUp_sublist q now
  unfold eventRequestTimer
  simp only [if_neg (show ¬(delay : ℤ) < 0 by omega)]
  exact ⟨_, _, rfl, List.perm_orderedInsert .., List.eraseP_sublist.trans hleft, rfl⟩

/-- A call does not panic, and one that sets none of these timers leaves no more of them. -/
theorem TimerCall.run_spec (p : ℤ → Prop) [DecidablePred p] (q : TimerQueue κ γ)
    (c : TimerCall κ γ) : ∃ q', c.run q = .ok q' ∧ q'.present = c.present q.present ∧ (c.Avoids p →
      q'.timers.countP (fun t => p t.due) ≤ q.timers.countP fun t => p t.due) := by
  cases c with
  | request callback context delay now =>
    obtain ⟨r, l, hr, hperm, hsub, hpresent⟩ :=
      eventRequestTimer_spec q callback context delay now
    refine ⟨r.2, by rw [TimerCall.run, hr]; rfl, hpresent, fun havoids => ?_⟩
    rw [hperm.countP_eq, List.countP_cons_of_neg (by simpa [TimerCall.Avoids] using havoids)]
    exact hsub.countP_le
  | cancel callback context now =>
    obtain ⟨hsub, hpresent⟩ := eventCancelTimer_spec q callback context now
    exact ⟨_, rfl, hpresent, fun _ => hsub.countP_le⟩

/-- A callback makes its calls. -/
theorem TimerCall.foldlM_spec (p : ℤ → Prop) [DecidablePred p] (calls : List (TimerCall κ γ)) :
    ∀ q : TimerQueue κ γ, ∃ q', calls.foldlM TimerCall.run q = .ok q' ∧
      q'.present = calls.foldl TimerCall.present q.present ∧
      ((∀ c ∈ calls, c.Avoids p) →
        q'.timers.countP (fun t => p t.due) ≤ q.timers.countP fun t => p t.due) := by
  induction calls with
  | nil => exact fun q => ⟨q, rfl, rfl, fun _ => le_rfl⟩
  | cons c calls ih =>
    intro q
    obtain ⟨q₁, hrun, hpresent, hle⟩ := c.run_spec p q
    obtain ⟨q₂, hruns, hpresent', hle'⟩ := ih q₁
    refine ⟨q₂, by rw [List.foldlM_cons, hrun]; exact hruns, ?_, fun havoids => ?_⟩
    · rw [hpresent', hpresent, List.foldl_cons]
    exact (hle' fun c' hc' => havoids c' (List.mem_cons_of_mem _ hc')).trans
      (hle (havoids c (List.mem_cons_self ..)))

/-! ## The whole loop -/

variable {calls : ℕ → List (TimerCall κ γ)} {q : TimerQueue κ γ} {now : ℤ}

/-- What one turn does : the loop ends, or the first timer is taken off and its callback makes its
calls. -/
theorem timersPass_succ {n : ℕ} {q₁ : TimerQueue κ γ}
    (h : timersPass calls q now n = .ok (some q₁)) :
    (timersPass calls q now (n + 1) = .ok none) ∨ ∃ timer q₂ q₃,
      eventFirstTimer q₁ = some (timer, q₂) ∧ (calls n).foldlM TimerCall.run q₂ = .ok q₃ ∧
      timersPass calls q now (n + 1) = .ok (some q₃) := by
  have hturn : timersPass calls q now (n + 1) = dispatchTimer (calls n) q₁ := by
    rw [timersPass, h]
    rfl
  rw [hturn, dispatchTimer]
  cases hfirst : eventFirstTimer q₁ with
  | none => exact Or.inl rfl
  | some x =>
    obtain ⟨q₃, hrun, -⟩ := TimerCall.foldlM_spec (fun _ => False) (calls n) x.2
    refine Or.inr ⟨x.1, x.2, q₃, rfl, hrun, ?_⟩
    dsimp only
    rw [hrun]
    rfl

/-- The loop does not panic. -/
theorem timersPass_ok (calls : ℕ → List (TimerCall κ γ)) (q : TimerQueue κ γ) (now : ℤ) (n : ℕ) :
    ∃ o, timersPass calls q now n = .ok o := by
  induction n with
  | zero => exact ⟨_, rfl⟩
  | succ n ih =>
    obtain ⟨o, ho⟩ := ih
    cases o with
    | none => exact ⟨none, by rw [timersPass, ho]; rfl⟩
    | some q₁ =>
      rcases timersPass_succ ho with hnone | ⟨_, _, _, -, -, hsome⟩
      · exact ⟨_, hnone⟩
      · exact ⟨_, hsome⟩

/-- A loop that has ended has ended. -/
theorem timersPass_none {n m : ℕ} (h : timersPass calls q now n = .ok none) (hle : n ≤ m) :
    timersPass calls q now m = .ok none := by
  induction m, hle using Nat.le_induction with
  | base => exact h
  | succ m _ ih =>
    rw [timersPass, ih]
    rfl

/-- A turn before which the loop has not ended comes after one in which a timer was taken off and
its callback made its calls. -/
theorem timersPass_pred {n : ℕ} {q₂ : TimerQueue κ γ}
    (h : timersPass calls q now (n + 1) = .ok (some q₂)) : ∃ q₁ timer q',
      timersPass calls q now n = .ok (some q₁) ∧ eventFirstTimer q₁ = some (timer, q') ∧
      (calls n).foldlM TimerCall.run q' = .ok q₂ := by
  obtain ⟨o, ho⟩ := timersPass_ok calls q now n
  cases o with
  | none => cases h.symm.trans (timersPass_none ho (Nat.le_succ n))
  | some q₁ =>
    rcases timersPass_succ ho with hnone | ⟨timer, q', q₃, hfirst, hrun, hsome⟩
    · cases h.symm.trans hnone
    · obtain rfl := Option.some.inj (Except.ok.inj (h.symm.trans hsome))
      exact ⟨q₁, timer, q', ho, hfirst, hrun⟩

/-- The time of day in turn `n`, from the readings of the clock. -/
def presentAt (calls : ℕ → List (TimerCall κ γ)) (now : ℤ) : ℕ → ℤ
  | 0 => now
  | n + 1 => (calls n).foldl TimerCall.present (presentAt calls now n)

/-- The time comes in turn `n` or later. -/
def ComesDue (calls : ℕ → List (TimerCall κ γ)) (now : ℤ) (n : ℕ) (due : ℤ) : Prop :=
  ∃ m, n ≤ m ∧ due ≤ presentAt calls now m

/-- The callback of turn `n` requests a timer whose time comes in a later turn. -/
def RequestsDue (calls : ℕ → List (TimerCall κ γ)) (now : ℤ) (n : ℕ) : Prop :=
  ∃ callback context delay now', TimerCall.request callback context delay now' ∈ calls n ∧
    ComesDue calls now (n + 1) (now' + (delay : ℕ))

theorem timersPass_present {n : ℕ} : ∀ {q₁ : TimerQueue κ γ},
    timersPass calls q now n = .ok (some q₁) → q₁.present = presentAt calls now n := by
  induction n with
  | zero =>
    intro q₁ h
    obtain rfl := Option.some.inj (Except.ok.inj h)
    rfl
  | succ n ih =>
    intro q₁ h
    obtain ⟨q₂, timer, q', hq₂, hfirst, hrun⟩ := timersPass_pred h
    obtain ⟨q₃, hrun', hpresent, -⟩ := TimerCall.foldlM_spec (fun _ => False) (calls n) q'
    obtain rfl := Except.ok.inj (hrun.symm.trans hrun')
    rw [hpresent, (eventFirstTimer_eq_some hfirst).2.2, ih hq₂, presentAt]

omit [DecidableEq κ] [DecidableEq γ] in
theorem ComesDue.mono {n m : ℕ} {due : ℤ} (h : ComesDue calls now m due) (hle : n ≤ m) :
    ComesDue calls now n due := by
  obtain ⟨k, hk, hdue⟩ := h
  exact ⟨k, hle.trans hk, hdue⟩

open Classical in
/-- How many timers of the queue have a time that comes. -/
noncomputable def comingDue (calls : ℕ → List (TimerCall κ γ)) (now : ℤ) (n : ℕ)
    (q : TimerQueue κ γ) : ℕ :=
  q.timers.countP fun t => ComesDue calls now n t.due

open Classical in
/-- If the callback requests no timer whose time comes, there are fewer such timers after it. -/
theorem comingDue_succ {n : ℕ} {q₁ q₂ : TimerQueue κ γ}
    (h₁ : timersPass calls q now n = .ok (some q₁))
    (h₂ : timersPass calls q now (n + 1) = .ok (some q₂)) (hcalls : ¬RequestsDue calls now n) :
    comingDue calls now (n + 1) q₂ < comingDue calls now n q₁ := by
  obtain ⟨q₀, timer, q', hq₀, hfirst, hrun⟩ := timersPass_pred h₂
  obtain rfl := Option.some.inj (Except.ok.inj (h₁.symm.trans hq₀))
  obtain ⟨hdue, htimers, -⟩ := eventFirstTimer_eq_some hfirst
  obtain ⟨q₄, hrun', -, hle⟩ :=
    TimerCall.foldlM_spec (ComesDue calls now (n + 1)) (calls n) q'
  obtain rfl := Except.ok.inj (hrun.symm.trans hrun')
  have havoids : ∀ c ∈ calls n, c.Avoids (ComesDue calls now (n + 1)) := by
    intro c hc
    cases c with
    | request callback context delay now' =>
      exact fun hcomes => hcalls ⟨callback, context, delay, now', hc, hcomes⟩
    | cancel => trivial
  have hhead : ComesDue calls now n timer.due := ⟨n, le_rfl, hdue.trans (timersPass_present h₁).le⟩
  have hmono : q'.timers.countP (fun t => ComesDue calls now (n + 1) t.due) ≤
      q'.timers.countP fun t => ComesDue calls now n t.due :=
    List.countP_mono_left fun t _ ht =>
      decide_eq_true ((of_decide_eq_true ht).mono (Nat.le_succ n))
  have hsplit : comingDue calls now n q₁ =
      q'.timers.countP (fun t => ComesDue calls now n t.due) + 1 := by
    have hhead' : decide (ComesDue calls now n timer.due) = true := decide_eq_true hhead
    rw [comingDue, htimers, List.countP_cons, if_pos hhead']
  have hle := hle havoids
  unfold comingDue at hsplit ⊢
  omega

/-- If from turn `k` on no callback requests a timer whose time comes, each turn takes one of those
that are left. -/
theorem comingDue_run {k : ℕ} {q₀ : TimerQueue κ γ} (h₀ : timersPass calls q now k = .ok (some q₀))
    (hcalls : ∀ n q', k ≤ n → timersPass calls q now n = .ok (some q') → ¬RequestsDue calls now n)
    (m : ℕ) : ∀ q', timersPass calls q now (k + m) = .ok (some q') →
      comingDue calls now (k + m) q' + m ≤ comingDue calls now k q₀ := by
  induction m with
  | zero =>
    intro q' hq'
    obtain rfl := Option.some.inj (Except.ok.inj (h₀.symm.trans hq'))
    exact le_rfl
  | succ m ih =>
    intro q' hq'
    rw [← Nat.add_assoc k m 1] at hq' ⊢
    obtain ⟨q₁, -, -, hq₁, -, -⟩ := timersPass_pred hq'
    have hlt := comingDue_succ hq₁ hq' (hcalls (k + m) q₁ (Nat.le_add_right k m) hq₁)
    have hle := ih q₁ hq₁
    omega

/-- The loop ends if and only if only finitely many of the callbacks that it calls request a timer
whose time comes in a later turn. -/
theorem timersPass_ends_iff (calls : ℕ → List (TimerCall κ γ)) (q : TimerQueue κ γ) (now : ℤ) :
    (∃ n, timersPass calls q now n = .ok none) ↔
      {n | RequestsDue calls now n ∧ ∃ q', timersPass calls q now n = .ok (some q')}.Finite := by
  constructor
  · rintro ⟨n, hn⟩
    refine (Set.finite_lt_nat n).subset ?_
    rintro i ⟨-, q', hpass⟩
    refine not_le.1 fun hle : n ≤ i => ?_
    cases hpass.symm.trans (timersPass_none hn hle)
  · intro hfinite
    obtain ⟨k, hk⟩ := hfinite.bddAbove
    by_contra hends
    push Not at hends
    have hgoes : ∀ n, ∃ q', timersPass calls q now n = .ok (some q') := by
      intro n
      obtain ⟨o, ho⟩ := timersPass_ok calls q now n
      cases o with
      | none => exact absurd ho (hends n)
      | some q' => exact ⟨q', ho⟩
    obtain ⟨q₀, hq₀⟩ := hgoes (k + 1)
    obtain ⟨q', hq'⟩ := hgoes (k + 1 + (comingDue calls now (k + 1) q₀ + 1))
    have hle := comingDue_run hq₀ (fun n q₁ hn hq₁ hdue => ?_) _ q' hq'
    · omega
    · have hlast : n ≤ k := hk ⟨hdue, q₁, hq₁⟩
      omega

/-- A callback that requests itself with no delay while the clock reads 100 is called for ever. -/
theorem not_timersPass_ends : ∃ (calls : ℕ → List (TimerCall Unit Unit))
    (q : TimerQueue Unit Unit) (now : ℤ), ∀ n, timersPass calls q now n ≠ .ok none := by
  refine ⟨fun _ => [.request () () 0 100], ⟨100, [⟨100, (), ()⟩]⟩, 100, fun n => ?_⟩
  have hsame : timersPass (fun _ => [.request () () 0 100]) ⟨100, [⟨100, (), ()⟩]⟩ 100 n =
      .ok (some ⟨100, [⟨100, (), ()⟩]⟩) := by
    induction n with
    | zero => rfl
    | succ n ih =>
      rw [timersPass, ih]
      rfl
  rw [hsame]
  exact nofun

end Nowra
