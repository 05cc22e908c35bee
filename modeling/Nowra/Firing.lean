import Nowra.Timers

/-!
# How a request for a timer ends

The requests of a run are numbered. A request that is pending ends when its timer fires, when it is
cancelled, when another request for the pair replaces it, and when a call finds that the time of day
counts as not looked up and empties the queue (`Ends`). It does so once, and no other step touches
it. A timer fires when its time has come and before all that are due later or were requested later,
and a dispatch ends when no time has come (`timers_fire_once`).

The queue is only emptied if the clock has read `0`.
-/

namespace Nowra

variable {κ γ : Type}

/-! ## The ends of a request -/

/-- The readings of the clock in a step. -/
def TimerLabel.readings : TimerLabel κ γ → List ℤ
  | .request _ _ _ now => [now]
  | .cancel _ _ now => [now]
  | .wait _ now now' => [now, now']
  | .ready now => [now]
  | .interrupted | .call _ _ | .returned | .timersDone | .eventsDone => []

/-- The step is a call that looks the time up if it was not. -/
def TimerLabel.LooksUp : TimerLabel κ γ → Prop
  | .request _ _ _ _ | .cancel _ _ _ | .wait _ _ _ => True
  | .interrupted | .ready _ | .call _ _ | .returned | .timersDone | .eventsDone => False

/-- How a request ends. -/
inductive TimerEnd
  | fired
  | cancelled
  | replaced
  /-- The queue was emptied. -/
  | dropped
  deriving DecidableEq

/-- The pending request number `n` ends in a step. -/
inductive Ends (s : TimerRun κ γ) (n : ℕ) : TimerLabel κ γ → TimerEnd → Prop
  | fired {callback : κ} {context : γ} {due : ℤ}
      (h : s.spec.pending (callback, context) = some (due, n)) :
      Ends s n (.call callback context) .fired
  | cancelled {callback : κ} {context : γ} {due now : ℤ}
      (h : s.spec.pending (callback, context) = some (due, n)) (hpresent : s.mem.present ≠ 0) :
      Ends s n (.cancel callback context now) .cancelled
  | replaced {callback : κ} {context : γ} {due delay now : ℤ}
      (h : s.spec.pending (callback, context) = some (due, n)) (hpresent : s.mem.present ≠ 0) :
      Ends s n (.request callback context delay now) .replaced
  | dropped {pair : κ × γ} {due : ℤ} {label : TimerLabel κ γ}
      (h : s.spec.pending pair = some (due, n)) (hpresent : s.mem.present = 0)
      (hlabel : label.LooksUp) : Ends s n label .dropped

/-- A request ends in one way. -/
theorem Ends.unique {s : TimerRun κ γ} {n : ℕ} {label : TimerLabel κ γ} {e e' : TimerEnd}
    (h : Ends s n label e) (h' : Ends s n label e') : e = e' := by
  cases h with
  | fired => cases h' with
    | fired => rfl
    | dropped _ _ hl => cases hl
  | cancelled _ hp => cases h' with
    | cancelled => rfl
    | dropped _ hz _ => exact absurd hz hp
  | replaced _ hp => cases h' with
    | replaced => rfl
    | dropped _ hz _ => exact absurd hz hp
  | dropped _ hz hl => cases h' with
    | fired => cases hl
    | cancelled _ hp => exact absurd hz hp
    | replaced _ hp => exact absurd hz hp
    | dropped => rfl

theorem Ends.pending {s : TimerRun κ γ} {n : ℕ} {label : TimerLabel κ γ} {e : TimerEnd}
    (h : Ends s n label e) : ∃ pair due, s.spec.pending pair = some (due, n) := by
  cases h with
  | fired h => exact ⟨_, _, h⟩
  | cancelled h _ => exact ⟨_, _, h⟩
  | replaced h _ => exact ⟨_, _, h⟩
  | dropped h _ _ => exact ⟨_, _, h⟩

theorem Ends.present_of_dropped {s : TimerRun κ γ} {n : ℕ} {label : TimerLabel κ γ}
    (h : Ends s n label .dropped) : s.mem.present = 0 := by
  cases h with
  | dropped _ hz _ => exact hz

variable [DecidableEq κ] [DecidableEq γ]

/-! ## What a step does to the pairs -/

/-- The pairs after a step. -/
def TimerRun.nextSpec (s : TimerRun κ γ) : TimerLabel κ γ → TimerSpec κ γ
  | .request callback context delay now =>
    (s.spec.lookUp s.mem.present).request (callback, context) (now + delay)
  | .cancel callback context _ => (s.spec.lookUp s.mem.present).cancel (callback, context)
  | .wait _ _ _ => s.spec.lookUp s.mem.present
  | .call callback context => s.spec.cancel (callback, context)
  | .interrupted | .ready _ | .returned | .timersDone | .eventsDone => s.spec

theorem TimerStep.spec_eq {s t : TimerRun κ γ} {label : TimerLabel κ γ}
    (h : TimerStep s label t) : t.spec = s.nextSpec label := by
  cases h <;> rfl

namespace TimerSpec

variable {spec : TimerSpec κ γ} {pair pair' : κ × γ} {due : ℤ} {n : ℕ}

/-- A pair that is left is pending as before. -/
theorem pending_of_cancel (h : (spec.cancel pair').pending pair = some (due, n)) :
    pair ≠ pair' ∧ spec.pending pair = some (due, n) := by
  rcases eq_or_ne pair pair' with rfl | hne
  · rw [cancel_self] at h
    cases h
  · exact ⟨hne, (cancel_of_ne hne).symm.trans h⟩

/-- A pair that is pending after a request is the one requested, or as before. -/
theorem pending_of_request {due' : ℤ}
    (h : (spec.request pair' due').pending pair = some (due, n)) :
    pair = pair' ∧ n = spec.requests ∨ pair ≠ pair' ∧ spec.pending pair = some (due, n) := by
  rcases eq_or_ne pair pair' with rfl | hne
  · rw [request_self] at h
    cases h
    exact Or.inl ⟨rfl, rfl⟩
  · exact Or.inr ⟨hne, (request_of_ne hne _).symm.trans h⟩

omit [DecidableEq κ] [DecidableEq γ] in
theorem pending_of_lookUp {present : ℤ} (h : (spec.lookUp present).pending pair = some (due, n)) :
    present ≠ 0 ∧ spec.pending pair = some (due, n) := by
  unfold lookUp at h
  split at h
  · cases h
  · exact ⟨‹_›, h⟩

omit [DecidableEq κ] [DecidableEq γ] in
theorem lookUp_of_ne {present : ℤ} (h : present ≠ 0) : spec.lookUp present = spec := if_neg h

omit [DecidableEq κ] [DecidableEq γ] in
theorem requests_lookUp (spec : TimerSpec κ γ) (present : ℤ) :
    (spec.lookUp present).requests = spec.requests := by
  unfold lookUp
  split
  · rfl
  · rfl

omit [DecidableEq κ] [DecidableEq γ] in
/-- Each pending pair has a number of its own. -/
structure Numbered (spec : TimerSpec κ γ) : Prop where
  lt : ∀ pair due n, spec.pending pair = some (due, n) → n < spec.requests
  inj : ∀ pair pair' due due' n, spec.pending pair = some (due, n) →
    spec.pending pair' = some (due', n) → pair = pair'

omit [DecidableEq κ] [DecidableEq γ] in
/-- No pair has the number, and none will get it. -/
structure Gone (spec : TimerSpec κ γ) (n : ℕ) : Prop where
  lt : n < spec.requests
  pending : ∀ pair due, spec.pending pair ≠ some (due, n)

end TimerSpec

namespace TimerRun

variable {s : TimerRun κ γ} {n : ℕ} {pair : κ × γ} {due : ℤ}

/-- A pair that is pending after a step was pending before, or has the next number. -/
theorem pending_of_next {label : TimerLabel κ γ}
    (h : (s.nextSpec label).pending pair = some (due, n)) :
    s.spec.pending pair = some (due, n) ∨
      ∃ callback context delay now, label = .request callback context delay now ∧
        pair = (callback, context) ∧ n = s.spec.requests := by
  cases label with
  | request callback context delay now =>
    rcases TimerSpec.pending_of_request h with ⟨hpair, hn⟩ | ⟨-, h⟩
    · exact Or.inr ⟨_, _, _, _, rfl, hpair, hn.trans (TimerSpec.requests_lookUp ..)⟩
    · exact Or.inl (TimerSpec.pending_of_lookUp h).2
  | cancel callback context now =>
    exact Or.inl (TimerSpec.pending_of_lookUp (TimerSpec.pending_of_cancel h).2).2
  | wait delay now now' => exact Or.inl (TimerSpec.pending_of_lookUp h).2
  | call callback context => exact Or.inl (TimerSpec.pending_of_cancel h).2
  | interrupted => exact Or.inl h
  | ready now => exact Or.inl h
  | returned => exact Or.inl h
  | timersDone => exact Or.inl h
  | eventsDone => exact Or.inl h

/-- A request takes the next number, and nothing else takes one. -/
theorem requests_next (s : TimerRun κ γ) (label : TimerLabel κ γ) :
    s.spec.requests ≤ (s.nextSpec label).requests ∧
      ∀ callback context delay now, label = .request callback context delay now →
        s.spec.requests < (s.nextSpec label).requests := by
  have hlook := TimerSpec.requests_lookUp s.spec s.mem.present
  cases label with
  | request callback context delay now =>
    have hnext : (s.nextSpec (.request callback context delay now)).requests =
        s.spec.requests + 1 := congrArg (· + 1) hlook
    exact ⟨by omega, fun _ _ _ _ _ => by omega⟩
  | cancel callback context now => exact ⟨hlook.ge, nofun⟩
  | wait delay now now' => exact ⟨hlook.ge, nofun⟩
  | call callback context => exact ⟨le_rfl, nofun⟩
  | interrupted => exact ⟨le_rfl, nofun⟩
  | ready now => exact ⟨le_rfl, nofun⟩
  | returned => exact ⟨le_rfl, nofun⟩
  | timersDone => exact ⟨le_rfl, nofun⟩
  | eventsDone => exact ⟨le_rfl, nofun⟩

theorem numbered_next (h : s.spec.Numbered) (label : TimerLabel κ γ) :
    (s.nextSpec label).Numbered := by
  obtain ⟨hle, hlt⟩ := requests_next s label
  refine ⟨fun pair due n hp => ?_, fun pair pair' due due' n hp hp' => ?_⟩
  · rcases pending_of_next hp with hp | ⟨_, _, _, _, hlabel, -, rfl⟩
    · exact (h.lt pair due n hp).trans_le hle
    · exact hlt _ _ _ _ hlabel
  · rcases pending_of_next hp with hp | ⟨_, _, _, _, hlabel, rfl, rfl⟩
    · rcases pending_of_next hp' with hp' | ⟨_, _, _, _, -, -, rfl⟩
      · exact h.inj pair pair' due due' n hp hp'
      · exact absurd (h.lt _ _ _ hp) (lt_irrefl _)
    · rcases pending_of_next hp' with hp' | ⟨_, _, _, _, hlabel', rfl, -⟩
      · exact absurd (h.lt _ _ _ hp') (lt_irrefl _)
      · rw [hlabel] at hlabel'
        cases hlabel'
        rfl

theorem gone_next (h : s.spec.Gone n) (label : TimerLabel κ γ) : (s.nextSpec label).Gone n := by
  refine ⟨h.lt.trans_le (requests_next s label).1, fun pair due hp => ?_⟩
  rcases pending_of_next hp with hp | ⟨_, _, _, _, -, -, rfl⟩
  · exact h.pending pair due hp
  · exact lt_irrefl _ h.lt

/-- A request that has ended is gone. -/
theorem gone_of_ends (hs : s.spec.Numbered) {label : TimerLabel κ γ} {e : TimerEnd}
    (h : Ends s n label e) : (s.nextSpec label).Gone n := by
  have hle := (requests_next s label).1
  cases h with
  | fired h =>
    refine ⟨(hs.lt _ _ _ h).trans_le hle, fun pair due hp => ?_⟩
    obtain ⟨hne, hp⟩ := TimerSpec.pending_of_cancel hp
    exact hne (hs.inj _ _ _ _ _ hp h)
  | cancelled h hpresent =>
    refine ⟨(hs.lt _ _ _ h).trans_le hle, fun pair due hp => ?_⟩
    obtain ⟨hne, hp⟩ := TimerSpec.pending_of_cancel hp
    exact hne (hs.inj _ _ _ _ _ (TimerSpec.pending_of_lookUp hp).2 h)
  | replaced h hpresent =>
    refine ⟨(hs.lt _ _ _ h).trans_le hle, fun pair due hp => ?_⟩
    rcases TimerSpec.pending_of_request hp with ⟨-, hn⟩ | ⟨hne, hp⟩
    · rw [TimerSpec.requests_lookUp] at hn
      exact (hs.lt _ _ _ h).ne hn
    · exact hne (hs.inj _ _ _ _ _ (TimerSpec.pending_of_lookUp hp).2 h)
  | dropped h hpresent hlabel =>
    refine ⟨(hs.lt _ _ _ h).trans_le hle, fun pair due hp => ?_⟩
    cases label with
    | request callback context delay now =>
      rcases TimerSpec.pending_of_request hp with ⟨-, hn⟩ | ⟨-, hp⟩
      · rw [TimerSpec.requests_lookUp] at hn
        exact (hs.lt _ _ _ h).ne hn
      · exact (TimerSpec.pending_of_lookUp hp).1 hpresent
    | cancel callback context now =>
      exact (TimerSpec.pending_of_lookUp (TimerSpec.pending_of_cancel hp).2).1 hpresent
    | wait delay now now' => exact (TimerSpec.pending_of_lookUp hp).1 hpresent
    | interrupted => cases hlabel
    | ready now => cases hlabel
    | call callback context => cases hlabel
    | returned => cases hlabel
    | timersDone => cases hlabel
    | eventsDone => cases hlabel

/-- A pending request that does not end stays as it is. -/
theorem stays_or_ends (h : s.spec.pending pair = some (due, n)) (label : TimerLabel κ γ) :
    (s.nextSpec label).pending pair = some (due, n) ∨ ∃ e, Ends s n label e := by
  by_cases hlook : s.mem.present = 0 ∧ label.LooksUp
  · exact Or.inr ⟨_, .dropped h hlook.1 hlook.2⟩
  cases label with
  | request callback context delay now =>
    have hpresent : s.mem.present ≠ 0 := fun hz => hlook ⟨hz, trivial⟩
    rcases eq_or_ne pair (callback, context) with rfl | hne
    · exact Or.inr ⟨_, .replaced h hpresent⟩
    · refine Or.inl ((TimerSpec.request_of_ne hne _).trans ?_)
      rwa [TimerSpec.lookUp_of_ne hpresent]
  | cancel callback context now =>
    have hpresent : s.mem.present ≠ 0 := fun hz => hlook ⟨hz, trivial⟩
    rcases eq_or_ne pair (callback, context) with rfl | hne
    · exact Or.inr ⟨_, .cancelled h hpresent⟩
    · refine Or.inl ((TimerSpec.cancel_of_ne hne).trans ?_)
      rwa [TimerSpec.lookUp_of_ne hpresent]
  | wait delay now now' =>
    refine Or.inl (?_ : (s.spec.lookUp s.mem.present).pending pair = _)
    rwa [TimerSpec.lookUp_of_ne fun hz => hlook ⟨hz, trivial⟩]
  | call callback context =>
    rcases eq_or_ne pair (callback, context) with rfl | hne
    · exact Or.inr ⟨_, .fired h⟩
    · exact Or.inl ((TimerSpec.cancel_of_ne hne).trans h)
  | interrupted => exact Or.inl h
  | ready now => exact Or.inl h
  | returned => exact Or.inl h
  | timersDone => exact Or.inl h
  | eventsDone => exact Or.inl h

end TimerRun

/-! ## The time of day -/

namespace TimerMem

variable {q : TimerMem κ γ}

omit [DecidableEq κ] [DecidableEq γ] in
theorem lookUp_present (q : TimerMem κ γ) (now : ℤ) :
    (q.lookUp now).present = if q.present = 0 then now else q.present := by
  unfold lookUp
  split
  · rfl
  · rfl

omit [DecidableEq κ] [DecidableEq γ] in
theorem link_present {ring : Option (RingHeap (Option ℕ))} {q' : TimerMem κ γ}
    (h : q.link ring = .ok q') : q'.present = q.present := by
  cases ring with
  | none => cases h
  | some ring => obtain rfl := Except.ok.inj h; rfl

omit [DecidableEq κ] [DecidableEq γ] in
theorem freeTimer_present {a : ℕ} {q' : TimerMem κ γ} (h : q.freeTimer a = .ok q') :
    q'.present = q.present := by
  unfold freeTimer at h
  split at h
  · cases h
  · obtain rfl := Except.ok.inj h
    rfl

omit [DecidableEq κ] [DecidableEq γ] in
theorem eventFirstTimer_present {x : ℕ × EventTimer κ γ × TimerMem κ γ}
    (h : eventFirstTimer q = .ok (some x)) : x.2.2.present = q.present := by
  obtain ⟨ring, -, h⟩ := bind_ok_iff.1 h
  cases ring with
  | none => cases h
  | some a =>
    obtain ⟨timer, -, h⟩ := bind_ok_iff.1 h
    split at h
    · cases h
    · obtain ⟨q', hlink, h⟩ := bind_ok_iff.1 h
      obtain rfl := Option.some.inj (Except.ok.inj h)
      exact link_present hlink

omit [DecidableEq κ] [DecidableEq γ] in
theorem eventWaitDelay_present {delay now now' : ℤ} {r : ℤ × TimerMem κ γ}
    (h : eventWaitDelay q delay now now' = .ok r) :
    r.2.present = (q.lookUp now).present ∨ r.2.present = now' := by
  obtain ⟨ring, -, h⟩ := bind_ok_iff.1 h
  cases ring with
  | none =>
    obtain rfl := Except.ok.inj h
    exact Or.inl rfl
  | some a =>
    obtain ⟨timer, -, h⟩ := bind_ok_iff.1 h
    obtain rfl := Except.ok.inj h
    exact Or.inr rfl

theorem eventCancelTimer_present {turns : ℕ} {callback : κ} {context : γ} {now : ℤ}
    {r : ℤ × TimerMem κ γ} (h : eventCancelTimer turns q callback context now = .ok r) :
    r.2.present = (q.lookUp now).present := by
  obtain ⟨ring, -, h⟩ := bind_ok_iff.1 h
  cases ring with
  | none =>
    obtain rfl := Except.ok.inj h
    rfl
  | some a =>
    obtain ⟨timer, -, h⟩ := bind_ok_iff.1 h
    obtain ⟨q₁, hlink, h⟩ := bind_ok_iff.1 h
    obtain ⟨q₂, hfree, h⟩ := bind_ok_iff.1 h
    obtain rfl := Except.ok.inj h
    exact (freeTimer_present hfree).trans (link_present hlink)

end TimerMem

namespace TimerRun

variable {s t : TimerRun κ γ} {l : List (ℕ × EventTimer κ γ)}

/-- A step reads the clock or keeps the time. If the time does not count as looked up, a call reads
the clock. -/
theorem Inv.present (hs : s.Inv l) {label : TimerLabel κ γ} (h : TimerStep s label t) :
    t.mem.present ∈ label.readings ∨
      t.mem.present = s.mem.present ∧ ¬(s.mem.present = 0 ∧ label.LooksUp) := by
  have hlookUp : ∀ now, (s.mem.lookUp now).present = now ∨
      (s.mem.lookUp now).present = s.mem.present ∧ s.mem.present ≠ 0 := by
    intro now
    rw [TimerMem.lookUp_present]
    split
    · exact Or.inl rfl
    · exact Or.inr ⟨rfl, ‹_›⟩
  cases h with
  | request _ hdelay haddr h => exact Or.inl (List.mem_singleton.2 (hs.request hdelay haddr h).1)
  | @cancel _ _ now r _ h =>
    obtain ⟨turns, hturns⟩ := h
    have hp := TimerMem.eventCancelTimer_present (hturns turns le_rfl)
    rcases hlookUp now with hnow | ⟨hkept, hne⟩
    · exact Or.inl (List.mem_singleton.2 (hp.trans hnow))
    · exact Or.inr ⟨hp.trans hkept, fun hz => hne hz.1⟩
  | @wait _ now now' r _ h =>
    rcases TimerMem.eventWaitDelay_present h with hp | hp
    · rcases hlookUp now with hnow | ⟨hkept, hne⟩
      · exact Or.inl (List.mem_cons.2 (Or.inl (hp.trans hnow)))
      · exact Or.inr ⟨hp.trans hkept, fun hz => hne hz.1⟩
    · exact Or.inl (List.mem_cons_of_mem _ (List.mem_singleton.2 hp))
  | interrupted _ => exact Or.inr ⟨rfl, fun hz => hz.2⟩
  | ready _ => exact Or.inl (List.mem_singleton.2 rfl)
  | call _ h => exact Or.inr ⟨TimerMem.eventFirstTimer_present h, fun hz => hz.2⟩
  | returned _ h => exact Or.inr ⟨TimerMem.freeTimer_present h, fun hz => hz.2⟩
  | timersDone _ _ => exact Or.inr ⟨rfl, fun hz => hz.2⟩
  | eventsDone _ => exact Or.inr ⟨rfl, fun hz => hz.2⟩

/-- Before the first call nothing else happens. -/
theorem looksUp_of_frames {label : TimerLabel κ γ} (h : TimerStep s label t)
    (hframes : s.frames = []) : label.LooksUp := by
  cases h with
  | request => trivial
  | cancel => trivial
  | wait => trivial
  | interrupted h => cases hframes.symm.trans h
  | ready h => cases hframes.symm.trans h
  | call h => cases hframes.symm.trans h
  | returned h => cases hframes.symm.trans h
  | timersDone h => cases hframes.symm.trans h
  | eventsDone h => cases hframes.symm.trans h

/-- After the first call the time is a reading of the clock. -/
theorem present_of_run {tr : List (TimerRun κ γ × TimerLabel κ γ × TimerRun κ γ)}
    (h : (timerSystem κ γ).Run tr s) :
    s = ⟨timerMemInit, [], ⟨fun _ => none, 0⟩⟩ ∨ ∃ m ∈ tr, s.mem.present ∈ m.2.1.readings := by
  obtain ⟨s₀, hs₀, hp⟩ := h
  induction hp with
  | nil => exact Or.inl hs₀
  | @snoc tr t u label hp hst ih =>
    obtain ⟨l, hinv⟩ := inv_of_reach ⟨tr, s₀, hs₀, hp⟩
    refine Or.inr ?_
    rcases hinv.present hst with hread | ⟨hkept, hlook⟩
    · exact ⟨_, List.mem_append_right _ (List.mem_singleton.2 rfl), hread⟩
    · rcases ih with rfl | ⟨m, hm, hread⟩
      · exact absurd ⟨rfl, looksUp_of_frames hst rfl⟩ hlook
      · exact ⟨m, List.mem_append_left _ hm, hkept ▸ hread⟩

theorem numbered_of_run {tr : List (TimerRun κ γ × TimerLabel κ γ × TimerRun κ γ)}
    (h : (timerSystem κ γ).Run tr s) : s.spec.Numbered := by
  refine (h.invariant (P := fun s => s.spec.Numbered) ?_ fun s label t hs hst => ?_).1
  · rintro _ rfl
    exact ⟨fun _ _ _ h => absurd h.symm (Option.some_ne_none _),
      fun _ _ _ _ _ h => absurd h.symm (Option.some_ne_none _)⟩
  · rw [TimerStep.spec_eq hst]
    exact numbered_next hs label

end TimerRun

/-! ## The requests that have not ended -/

/-- The pairs with the time their latest request is due, as far as it has not ended, from the steps
of a run alone. -/
def TimerLabel.ledger (pending : κ × γ → Option ℤ) : TimerLabel κ γ → κ × γ → Option ℤ
  | .request callback context delay now =>
    Function.update pending (callback, context) (some (now + delay))
  | .cancel callback context _ | .call callback context =>
    Function.update pending (callback, context) none
  | .wait _ _ _ | .interrupted | .ready _ | .returned | .timersDone | .eventsDone => pending

/-- The times the requests are due that were not fired, cancelled or replaced. -/
def outstanding (labels : List (TimerLabel κ γ)) : κ × γ → Option ℤ :=
  labels.foldl TimerLabel.ledger fun _ => none

omit [DecidableEq κ] [DecidableEq γ] in
/-- The times the pending pairs are due. -/
def TimerSpec.dues (spec : TimerSpec κ γ) (pair : κ × γ) : Option ℤ :=
  (spec.pending pair).map Prod.fst

theorem TimerSpec.dues_request (spec : TimerSpec κ γ) (pair : κ × γ) (due : ℤ) :
    (spec.request pair due).dues = Function.update spec.dues pair (some due) := by
  funext pair'
  rcases eq_or_ne pair' pair with rfl | hne
  · rw [Function.update_self, dues, request_self]
    rfl
  · rw [Function.update_of_ne hne, dues, request_of_ne hne, dues]

theorem TimerSpec.dues_cancel (spec : TimerSpec κ γ) (pair : κ × γ) :
    (spec.cancel pair).dues = Function.update spec.dues pair none := by
  funext pair'
  rcases eq_or_ne pair' pair with rfl | hne
  · rw [Function.update_self, dues, cancel_self]
    rfl
  · rw [Function.update_of_ne hne, dues, cancel_of_ne hne, dues]

/-- Unless the queue is emptied, a step does to the pairs what it does to the requests that have
not ended. -/
theorem TimerRun.dues_next {s : TimerRun κ γ} {label : TimerLabel κ γ}
    (hlook : label.LooksUp → s.mem.present = 0 → s.spec.dues = fun _ => none) :
    (s.nextSpec label).dues = label.ledger s.spec.dues := by
  have hlookUp : label.LooksUp → (s.spec.lookUp s.mem.present).dues = s.spec.dues := by
    intro hl
    unfold TimerSpec.lookUp
    split
    · exact (hlook hl ‹_›).symm
    · rfl
  cases label with
  | request callback context delay now =>
    refine (TimerSpec.dues_request ..).trans ?_
    rw [hlookUp trivial]
    rfl
  | cancel callback context now =>
    refine (TimerSpec.dues_cancel ..).trans ?_
    rw [hlookUp trivial]
    rfl
  | wait delay now now' => exact hlookUp trivial
  | call callback context => exact TimerSpec.dues_cancel ..
  | interrupted => rfl
  | ready now => rfl
  | returned => rfl
  | timersDone => rfl
  | eventsDone => rfl

/-- If the clock never reads `0`, the pending requests are those that have not ended. -/
theorem TimerRun.dues_of_run {s : TimerRun κ γ}
    {tr : List (TimerRun κ γ × TimerLabel κ γ × TimerRun κ γ)} (h : (timerSystem κ γ).Run tr s)
    (hclock : ∀ m ∈ tr, 0 ∉ m.2.1.readings) :
    s.spec.dues = outstanding (tr.map fun m => m.2.1) := by
  obtain ⟨s₀, hs₀, hp⟩ := h
  induction hp with
  | nil =>
    obtain rfl := hs₀
    rfl
  | @snoc tr t u label hp hst ih =>
    have ih := ih fun m hm => hclock m (List.mem_append_left _ hm)
    rw [TimerStep.spec_eq hst, dues_next, ih, outstanding, outstanding, List.map_append,
      List.foldl_append]
    · rfl
    · intro _ hz
      rcases present_of_run ⟨s₀, hs₀, hp⟩ with rfl | ⟨m, hm, hread⟩
      · rfl
      · exact absurd (hz ▸ hread) (hclock m (List.mem_append_left _ hm))

/-! ## Every run -/

/-- A request that has ended does not end again. -/
theorem TimerRun.ends_once {s : TimerRun κ γ} {n : ℕ} {e : TimerEnd}
    {tr pre post : List (TimerRun κ γ × TimerLabel κ γ × TimerRun κ γ)}
    {m : TimerRun κ γ × TimerLabel κ γ × TimerRun κ γ} (h : (timerSystem κ γ).Run tr s)
    (htr : tr = pre ++ m :: post) (hends : Ends m.1 n m.2.1 e) :
    ∀ m' ∈ post, ∀ e', ¬Ends m'.1 n m'.2.1 e' := by
  obtain ⟨s₀, hs₀, hp⟩ := h
  obtain ⟨hpre, hst, hpost⟩ := hp.of_append_cons htr
  have hnumbered := numbered_of_run ⟨s₀, hs₀, hpre⟩
  have hgone : m.2.2.spec.Gone n := by
    rw [TimerStep.spec_eq hst]
    exact gone_of_ends hnumbered hends
  have hall := (hpost.invariant (P := fun s => s.spec.Gone n) hgone fun s label t hs hst => by
    rw [TimerStep.spec_eq hst]
    exact gone_next hs label).2
  intro m' hm' e' hends'
  obtain ⟨pair, due, hpending⟩ := hends'.pending
  exact (hall m' hm').1.pending pair due hpending

/-- A timer that fires is the least that is pending, and its time has come. -/
theorem TimerRun.Inv.fires {s t : TimerRun κ γ} {l : List (ℕ × EventTimer κ γ)} (hs : s.Inv l)
    {callback : κ} {context : γ} (h : TimerStep s (.call callback context) t) :
    s.frames ≠ [] ∧ ∃ due n, s.spec.pending (callback, context) = some (due, n) ∧
      due ≤ s.mem.present ∧ ∀ pair due' n', s.spec.pending pair = some (due', n') →
        pair = (callback, context) ∨ due < due' ∨ due = due' ∧ n < n' := by
  cases h with
  | @call frames x hframes h =>
    refine ⟨by simp [hframes], ?_⟩
    rcases hs.first hframes with ⟨hnone, -⟩ | ⟨x', n, hsome, hle, hpending, hleast⟩
    · cases hnone.symm.trans h
    · obtain rfl := Option.some.inj (Except.ok.inj (hsome.symm.trans h))
      refine ⟨_, n, hpending, hle, fun pair due' n' hpending' => ?_⟩
      rcases eq_or_ne pair x'.2.1.pair with rfl | hne
      · exact Or.inl rfl
      · exact Or.inr (hleast pair due' n' hpending' hne)

/-- When a dispatch ends, no time has come. -/
theorem TimerRun.Inv.done {s t : TimerRun κ γ} {l : List (ℕ × EventTimer κ γ)} (hs : s.Inv l)
    (h : TimerStep s .timersDone t) {pair : κ × γ} {due : ℤ} {n : ℕ}
    (hpending : s.spec.pending pair = some (due, n)) : s.mem.present < due := by
  cases h with
  | timersDone hframes h =>
    rcases hs.first hframes with ⟨-, hall⟩ | ⟨x, n, hsome, -⟩
    · exact hall pair due _ hpending
    · cases h.symm.trans hsome

/-- If the clock never reads `0`, the queue is not emptied. -/
theorem TimerRun.not_dropped {s : TimerRun κ γ}
    {tr : List (TimerRun κ γ × TimerLabel κ γ × TimerRun κ γ)} (h : (timerSystem κ γ).Run tr s)
    (hclock : ∀ m ∈ tr, 0 ∉ m.2.1.readings) {m : TimerRun κ γ × TimerLabel κ γ × TimerRun κ γ}
    (hm : m ∈ tr) {n : ℕ} : ¬Ends m.1 n m.2.1 .dropped := by
  obtain ⟨s₀, hs₀, hp⟩ := h
  obtain ⟨pre, post, rfl⟩ := List.append_of_mem hm
  obtain ⟨hpre, -, -⟩ := hp.of_append_cons rfl
  intro hends
  obtain ⟨pair, due, hpending⟩ := hends.pending
  have hzero := hends.present_of_dropped
  rcases present_of_run ⟨s₀, hs₀, hpre⟩ with hinit | ⟨m', hm', hread⟩
  · rw [hinit] at hpending
    cases hpending
  · exact hclock m' (List.mem_append_left _ hm') (hzero ▸ hread)

/-- In every run a request ends at most once and in one way, and stays pending until then. The
timers in the ring are those of the pending requests. A timer that fires is the least of them by
the time it is due and the number of its request, and a clock that has not gone back is not before
this time. When a dispatch ends, no time has come. If the clock never reads `0`, the pending
requests are all that were not fired, cancelled or replaced. -/
theorem timers_fire_once {s : TimerRun κ γ}
    {tr : List (TimerRun κ γ × TimerLabel κ γ × TimerRun κ γ)} (h : (timerSystem κ γ).Run tr s) :
    (∀ pre m post n e, tr = pre ++ m :: post → Ends m.1 n m.2.1 e →
      (∀ e', Ends m.1 n m.2.1 e' → e' = e) ∧ ∀ m' ∈ post, ∀ e', ¬Ends m'.1 n m'.2.1 e') ∧
    (∀ m ∈ tr, ∀ pair due n, m.1.spec.pending pair = some (due, n) →
      m.2.2.spec.pending pair = some (due, n) ∨ ∃ e, Ends m.1 n m.2.1 e) ∧
    (∃ l, s.mem.Holds l ∧ s.spec.Agrees (l.map Prod.snd)) ∧
    (∀ pre m post callback context, tr = pre ++ m :: post → m.2.1 = .call callback context →
      ∃ due n, m.1.spec.pending (callback, context) = some (due, n) ∧
        (∀ clock, (∀ m' ∈ pre, ∀ now ∈ m'.2.1.readings, now ≤ clock) → due ≤ clock) ∧
        ∀ pair due' n', m.1.spec.pending pair = some (due', n') →
          pair = (callback, context) ∨ due < due' ∨ due = due' ∧ n < n') ∧
    (∀ m ∈ tr, m.2.1 = .timersDone → ∀ pair due n,
      m.1.spec.pending pair = some (due, n) → m.1.mem.present < due) ∧
    ((∀ m ∈ tr, 0 ∉ m.2.1.readings) →
      (∀ m ∈ tr, ∀ n, ¬Ends m.1 n m.2.1 .dropped) ∧
      ∀ pair, (s.spec.pending pair).map Prod.fst = outstanding (tr.map fun m => m.2.1) pair) := by
  obtain ⟨s₀, hs₀, hp⟩ := h
  refine ⟨fun pre m post n e htr hends => ⟨fun e' h => h.unique hends, ?_⟩,
    fun m hm pair due n hpending => ?_, ?_, fun pre m post callback context htr hcall => ?_,
    fun m hm hdone pair due n hpending => ?_, fun hclock => ⟨fun m hm n hends => ?_, ?_⟩⟩
  · exact TimerRun.ends_once ⟨s₀, hs₀, hp⟩ htr hends
  · rw [TimerStep.spec_eq (hp.step_of_mem hm)]
    exact TimerRun.stays_or_ends hpending m.2.1
  · obtain ⟨l, hinv⟩ := TimerRun.inv_of_reach ⟨tr, s₀, hs₀, hp⟩
    exact ⟨l, hinv.holds, hinv.agrees⟩
  · obtain ⟨hpre, hst, -⟩ := hp.of_append_cons htr
    have hrun : (timerSystem κ γ).Run pre m.1 := ⟨s₀, hs₀, hpre⟩
    obtain ⟨l, hinv⟩ := TimerRun.inv_of_reach ⟨pre, hrun⟩
    obtain ⟨hframes, due, n, hpending, hle, hleast⟩ := hinv.fires (hcall ▸ hst)
    refine ⟨due, n, hpending, fun clock hclock => ?_, hleast⟩
    rcases TimerRun.present_of_run hrun with hinit | ⟨m', hm', hread⟩
    · exact absurd (congrArg TimerRun.frames hinit) hframes
    · exact hle.trans (hclock m' hm' _ hread)
  · obtain ⟨pre, post, htr⟩ := List.append_of_mem hm
    obtain ⟨hpre, hst, -⟩ := hp.of_append_cons htr
    obtain ⟨l, hinv⟩ := TimerRun.inv_of_reach ⟨pre, s₀, hs₀, hpre⟩
    exact hinv.done (hdone ▸ hst) hpending
  · exact TimerRun.not_dropped ⟨s₀, hs₀, hp⟩ hclock hm hends
  · exact congrFun (TimerRun.dues_of_run ⟨s₀, hs₀, hp⟩ hclock)

/-- A pair is requested for 5 seconds later, and `event_wait` waits until the clock reads `now'`. -/
theorem exists_run_ready (now now' : ℤ) : ∃ (s : TimerRun Unit ℕ)
    (tr : List (TimerRun Unit ℕ × TimerLabel Unit ℕ × TimerRun Unit ℕ)),
    (timerSystem Unit ℕ).Run tr s ∧
    tr.map (fun m => m.2.1) = [.request () 1 5 now, .wait 7 now' now', .ready now'] ∧
    s.frames = [.timers] ∧ s.mem.present = now' ∧
    s.spec = (TimerSpec.request ⟨fun _ => none, 0⟩ ((), 1) (now + 5)).lookUp now := by
  have hinit : TimerRun.Inv (κ := Unit) (γ := ℕ) _ _ := TimerRun.inv_init
  obtain ⟨q, hst, hpresent, -⟩ := hinit.exists_request trivial () 1 (show (0 : ℤ) ≤ 5 by decide) now
    (show timerMemInit.timer 0 = none from rfl)
  obtain ⟨l, hinv⟩ := hinit.step hst
  obtain ⟨q', hst'⟩ := hinv.exists_wait (show Running [] from trivial) 7 now' now'
  refine ⟨_, _, ⟨_, rfl, ((LTS.Path.single hst).snoc hst').snoc
    (TimerStep.ready rfl : TimerStep _ (.ready now') _)⟩, rfl, rfl, rfl, ?_⟩
  rw [hpresent]
  rfl

/-- A timer that is requested at time 100 for 5 seconds later fires at 105. -/
theorem timers_fire_once_one : ∃ (s : TimerRun Unit ℕ)
    (tr : List (TimerRun Unit ℕ × TimerLabel Unit ℕ × TimerRun Unit ℕ)),
    (timerSystem Unit ℕ).Run tr s ∧ tr.map (fun m => m.2.1) =
      [.request () 1 5 100, .wait 7 105 105, .ready 105, .call () 1] ∧
    ∃ m ∈ tr, m.2.1 = .call () 1 ∧ ∃ due n, m.1.spec.pending ((), 1) = some (due, n) ∧
      due ≤ 105 := by
  obtain ⟨s, tr, hrun, hlabels, hframes, hpresent, hspec⟩ := exists_run_ready 100 105
  obtain ⟨l, hinv⟩ := TimerRun.inv_of_reach ⟨tr, hrun⟩
  have hpending : s.spec.pending ((), 1) = some (105, 0) := by
    rw [hspec]
    rfl
  obtain ⟨s₀, hs₀, hp⟩ := hrun
  rcases hinv.first hframes with ⟨-, hall⟩ | ⟨x, n, hfirst, -, hx, -⟩
  · exact absurd (hall _ _ _ hpending) (by omega)
  · have hst : (timerSystem Unit ℕ).step s (.call () x.2.1.context) _ :=
      TimerStep.call hframes hfirst
    have hcontext : x.2.1.context = 1 := by
      rw [hspec] at hx
      rcases TimerSpec.pending_of_request (TimerSpec.pending_of_lookUp hx).2 with
        ⟨hpair, -⟩ | ⟨-, h⟩
      · exact congrArg Prod.snd hpair
      · cases h
    rw [hcontext] at hst
    have hrun' : (timerSystem Unit ℕ).Run _ _ := ⟨s₀, hs₀, hp.snoc hst⟩
    obtain ⟨due, n, hdue, htime, -⟩ := (timers_fire_once hrun').2.2.2.1 tr _ [] () 1 rfl rfl
    refine ⟨_, _, hrun', by simp [hlabels], _, List.mem_append_right _ (List.mem_singleton.2 rfl),
      rfl, due, n, hdue, htime 105 fun m hm now hnow => ?_⟩
    have hlabel : m.2.1 ∈ tr.map fun m => m.2.1 := List.mem_map_of_mem hm
    rw [hlabels] at hlabel
    have hclock : ∀ label ∈ [TimerLabel.request () 1 5 100, .wait 7 105 105, .ready 105],
        ∀ now ∈ label.readings, now ≤ 105 := by decide
    exact hclock _ hlabel now hnow

/-- A pair is requested while the clock reads `0`. When the clock reads 10 the next dispatch ends
and the request was neither fired nor cancelled nor replaced. -/
theorem not_timers_fire_once : ∃ (s : TimerRun Unit ℕ)
    (tr : List (TimerRun Unit ℕ × TimerLabel Unit ℕ × TimerRun Unit ℕ)),
    (timerSystem Unit ℕ).Run tr s ∧ tr.map (fun m => m.2.1) =
      [.request () 1 5 0, .wait 7 10 10, .ready 10, .timersDone] ∧
    outstanding (tr.map fun m => m.2.1) ((), 1) = some 5 ∧ 5 ≤ s.mem.present := by
  obtain ⟨s, tr, hrun, hlabels, hframes, hpresent, hspec⟩ := exists_run_ready 0 10
  obtain ⟨l, hinv⟩ := TimerRun.inv_of_reach ⟨tr, hrun⟩
  obtain ⟨s₀, hs₀, hp⟩ := hrun
  rcases hinv.first hframes with ⟨hfirst, -⟩ | ⟨x, n, -, -, hx, -⟩
  · have hst : (timerSystem Unit ℕ).step s .timersDone _ := TimerStep.timersDone hframes hfirst
    refine ⟨_, _, ⟨s₀, hs₀, hp.snoc hst⟩, by simp [hlabels], ?_, ?_⟩
    · rw [List.map_append, hlabels]
      rfl
    · exact (show (5 : ℤ) ≤ 10 by decide).trans hpresent.ge
  · rw [hspec] at hx
    cases hx

end Nowra
