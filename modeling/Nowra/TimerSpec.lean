import Nowra.Events

/-!
# What the timer queue is for

A map from pairs of a callback and a context to the time the pair is due (`TimerSpec`). A request
inserts or replaces a pair, a cancel removes it, and the requests are numbered.

A queue agrees with the map if it has one timer for each pair of the map, by the time they are due
and, where that is the same, by the number of the latest request (`TimerSpec.Agrees`). The two
calls of `events.c` keep this : `TimerSpec.Agrees.request`, `TimerSpec.Agrees.cancel`.
-/

namespace Nowra

variable {κ γ : Type}

/-- The pairs with the time they are due and the number of their latest request. -/
structure TimerSpec (κ γ : Type) where
  pending : κ × γ → Option (ℤ × ℕ)
  /-- How many requests there were. -/
  requests : ℕ

/-- The pair a timer is for. -/
def EventTimer.pair (timer : EventTimer κ γ) : κ × γ := (timer.callback, timer.context)

namespace TimerSpec

/-- No pair is pending. -/
def clear (spec : TimerSpec κ γ) : TimerSpec κ γ := { spec with pending := fun _ => none }

variable [DecidableEq κ] [DecidableEq γ]

/-- The pair is pending until `due`. -/
def request (spec : TimerSpec κ γ) (pair : κ × γ) (due : ℤ) : TimerSpec κ γ :=
  ⟨Function.update spec.pending pair (some (due, spec.requests)), spec.requests + 1⟩

/-- The pair is not pending. -/
def cancel (spec : TimerSpec κ γ) (pair : κ × γ) : TimerSpec κ γ :=
  { spec with pending := Function.update spec.pending pair none }

/-- The number of the latest request for a pair that is pending. -/
def number (spec : TimerSpec κ γ) (pair : κ × γ) : ℕ := ((spec.pending pair).map Prod.snd).getD 0

/-- Due before, or at the same time and requested before. -/
def Before (spec : TimerSpec κ γ) (t t' : EventTimer κ γ) : Prop :=
  t.due < t'.due ∨ t.due = t'.due ∧ spec.number t.pair < spec.number t'.pair

/-- The queue has the pairs of the map, in their order. -/
structure Agrees (spec : TimerSpec κ γ) (timers : List (EventTimer κ γ)) : Prop where
  pairs : (timers.map EventTimer.pair).Nodup
  pending : ∀ t ∈ timers, ∃ n, spec.pending t.pair = some (t.due, n)
  mem : ∀ pair due n, spec.pending pair = some (due, n) → ⟨due, pair.1, pair.2⟩ ∈ timers
  sorted : timers.Pairwise spec.Before
  requests : ∀ pair due n, spec.pending pair = some (due, n) → n < spec.requests

variable {spec : TimerSpec κ γ} {timers : List (EventTimer κ γ)}

omit [DecidableEq κ] [DecidableEq γ] in
theorem agrees_clear (spec : TimerSpec κ γ) : Agrees spec.clear [] :=
  ⟨List.nodup_nil, by simp, by simp [clear], .nil, by simp [clear]⟩

theorem request_self (spec : TimerSpec κ γ) (pair : κ × γ) (due : ℤ) :
    (spec.request pair due).pending pair = some (due, spec.requests) :=
  Function.update_self ..

theorem request_of_ne {pair pair' : κ × γ} (h : pair' ≠ pair) (due : ℤ) :
    (spec.request pair due).pending pair' = spec.pending pair' :=
  Function.update_of_ne h ..

theorem cancel_self (spec : TimerSpec κ γ) (pair : κ × γ) :
    (spec.cancel pair).pending pair = none :=
  Function.update_self ..

theorem cancel_of_ne {pair pair' : κ × γ} (h : pair' ≠ pair) :
    (spec.cancel pair).pending pair' = spec.pending pair' :=
  Function.update_of_ne h ..

/-- With distinct pairs, erasing one is leaving it out. -/
theorem eraseP_isFor (h : (timers.map EventTimer.pair).Nodup) (callback : κ) (context : γ) :
    timers.eraseP (EventTimer.isFor callback context) =
      timers.filter (·.pair ≠ (callback, context)) := by
  induction timers with
  | nil => rfl
  | cons t timers ih =>
    rw [List.map_cons, List.nodup_cons] at h
    by_cases ht : t.pair = (callback, context)
    · have hfor : EventTimer.isFor callback context t = true := by
        simpa [EventTimer.isFor, EventTimer.pair] using ht
      rw [List.eraseP_cons_of_pos hfor, List.filter_cons_of_neg (by simpa using ht)]
      refine (List.filter_eq_self.2 fun t' ht' => ?_).symm
      refine decide_eq_true fun heq => h.1 ?_
      rw [ht, ← heq]
      exact List.mem_map_of_mem ht'
    · have hfor : ¬EventTimer.isFor callback context t = true := by
        simpa [EventTimer.isFor, EventTimer.pair] using ht
      rw [List.eraseP_cons_of_neg hfor, List.filter_cons_of_pos (by simpa using ht), ih h.2]

theorem number_request (spec : TimerSpec κ γ) (pair : κ × γ) (due : ℤ) :
    (spec.request pair due).number pair = spec.requests := by
  rw [number, request_self]
  rfl

theorem number_request_of_ne {pair pair' : κ × γ} (h : pair' ≠ pair) (due : ℤ) :
    (spec.request pair due).number pair' = spec.number pair' := by
  rw [number, request_of_ne h, number]

theorem number_cancel_of_ne {pair pair' : κ × γ} (h : pair' ≠ pair) :
    (spec.cancel pair).number pair' = spec.number pair' := by
  rw [number, cancel_of_ne h, number]

omit [DecidableEq κ] [DecidableEq γ] in
theorem Before.le {t t' : EventTimer κ γ} (h : spec.Before t t') : t.due ≤ t'.due := by
  rcases h with h | h <;> omega

/-- A cancel takes the timer of the pair away. -/
theorem Agrees.cancel (h : spec.Agrees timers) (callback : κ) (context : γ) :
    (spec.cancel (callback, context)).Agrees
      (timers.eraseP (EventTimer.isFor callback context)) := by
  rw [eraseP_isFor h.pairs]
  refine ⟨h.pairs.sublist (List.filter_sublist.map _), fun t ht => ?_, fun pair due n hp => ?_, ?_,
    fun pair due n hp => ?_⟩
  · obtain ⟨ht, hne⟩ := List.mem_filter.1 ht
    rw [cancel_of_ne (of_decide_eq_true hne)]
    exact h.pending t ht
  · rcases eq_or_ne pair (callback, context) with rfl | hne
    · rw [cancel_self] at hp
      cases hp
    · rw [cancel_of_ne hne] at hp
      exact List.mem_filter.2 ⟨h.mem pair due n hp, decide_eq_true hne⟩
  · refine (List.Pairwise.filter _ h.sorted).imp_of_mem fun {t t'} ht ht' hb => ?_
    rw [Before, number_cancel_of_ne (of_decide_eq_true (List.mem_filter.1 ht).2),
      number_cancel_of_ne (of_decide_eq_true (List.mem_filter.1 ht').2)]
    exact hb
  · rcases eq_or_ne pair (callback, context) with rfl | hne
    · rw [cancel_self] at hp
      cases hp
    · rw [cancel_of_ne hne] at hp
      exact h.requests pair due n hp

/-- Where a timer is inserted. -/
theorem exists_orderedInsert {α : Type} (r : α → α → Prop) [DecidableRel r] (a : α) (l : List α) :
    ∃ l₁ l₂, l = l₁ ++ l₂ ∧ l.orderedInsert r a = l₁ ++ a :: l₂ ∧ (∀ x ∈ l₁, ¬r a x) ∧
      ∀ x ∈ l₂.head?, r a x := by
  induction l with
  | nil => exact ⟨[], [], rfl, rfl, by simp, by simp⟩
  | cons x l ih =>
    by_cases hr : r a x
    · exact ⟨[], x :: l, rfl, by simp [hr], by simp, by simpa using hr⟩
    · obtain ⟨l₁, l₂, hl, heq, h₁, h₂⟩ := ih
      refine ⟨x :: l₁, l₂, by rw [hl, List.cons_append], ?_, ?_, h₂⟩
      · rw [List.orderedInsert_cons, if_neg hr, heq, List.cons_append]
      · exact List.forall_mem_cons.2 ⟨hr, h₁⟩

/-- A pair that is not pending is inserted behind those that are due earlier or at the same time. -/
theorem Agrees.insert (h : spec.Agrees timers) {callback : κ} {context : γ}
    (hnew : spec.pending (callback, context) = none) (due : ℤ) :
    (spec.request (callback, context) due).Agrees
      (timers.orderedInsert (fun a b => a.due < b.due) ⟨due, callback, context⟩) := by
  obtain ⟨l₁, l₂, rfl, hins, h₁, h₂⟩ :=
    exists_orderedInsert (fun a b => a.due < b.due) (⟨due, callback, context⟩ : EventTimer κ γ)
      timers
  have hperm := List.perm_orderedInsert (fun a b => a.due < b.due)
    (⟨due, callback, context⟩ : EventTimer κ γ) (l₁ ++ l₂)
  have hne : ∀ t ∈ l₁ ++ l₂, t.pair ≠ (callback, context) := by
    intro t ht heq
    obtain ⟨n, hn⟩ := h.pending t ht
    rw [heq, hnew] at hn
    cases hn
  have hother : ∀ t ∈ l₁ ++ l₂, (spec.request (callback, context) due).pending t.pair =
      spec.pending t.pair := fun t ht => request_of_ne (hne t ht) due
  have hself : (spec.request (callback, context) due).pending (callback, context) =
      some (due, spec.requests) := request_self ..
  have hbefore : ∀ t ∈ l₁ ++ l₂, ∀ t' ∈ l₁ ++ l₂, spec.Before t t' →
      (spec.request (callback, context) due).Before t t' := by
    intro t ht t' ht' hb
    rwa [Before, number_request_of_ne (hne t ht), number_request_of_ne (hne t' ht')]
  refine ⟨?_, fun t ht => ?_, fun pair d n hp => ?_, ?_, fun pair d n hp => ?_⟩
  · refine ((hperm.map EventTimer.pair).nodup_iff).2 (List.nodup_cons.2 ⟨fun hmem => ?_, h.pairs⟩)
    obtain ⟨t, ht, heq⟩ := List.mem_map.1 hmem
    exact hne t ht heq
  · rcases List.mem_cons.1 (hperm.mem_iff.1 ht) with rfl | ht
    · exact ⟨_, hself⟩
    · rw [hother t ht]
      exact h.pending t ht
  · refine hperm.mem_iff.2 (List.mem_cons.2 ?_)
    rcases eq_or_ne pair (callback, context) with rfl | hpair
    · rw [hself] at hp
      cases hp
      exact Or.inl rfl
    · rw [request_of_ne hpair] at hp
      exact Or.inr (h.mem pair d n hp)
  · rw [hins]
    obtain ⟨hs₁, hs₂, hs⟩ := List.pairwise_append.1 h.sorted
    have hlast : ∀ t ∈ l₁, (spec.request (callback, context) due).Before t
        ⟨due, callback, context⟩ := by
      intro t ht
      have hmem : t ∈ l₁ ++ l₂ := List.mem_append_left _ ht
      rcases (not_lt.1 (h₁ t ht)).lt_or_eq with hlt | heq
      · exact Or.inl hlt
      · obtain ⟨n, hn⟩ := h.pending t hmem
        refine Or.inr ⟨heq, ?_⟩
        rw [number_request_of_ne (hne t hmem), show EventTimer.pair ⟨due, callback, context⟩ =
          (callback, context) from rfl, number_request, number, hn]
        exact h.requests _ _ _ hn
    have hfirst : ∀ t ∈ l₂, (spec.request (callback, context) due).Before
        ⟨due, callback, context⟩ t := by
      intro t ht
      cases l₂ with
      | nil => cases ht
      | cons x l₂ =>
        have hx : due < x.due := h₂ x rfl
        rcases List.mem_cons.1 ht with rfl | ht
        · exact Or.inl hx
        · exact Or.inl (hx.trans_le (List.rel_of_pairwise_cons hs₂ ht).le)
    refine List.pairwise_append.2 ⟨?_, List.pairwise_cons.2 ⟨hfirst, ?_⟩, ?_⟩
    · exact hs₁.imp_of_mem fun ht ht' =>
        hbefore _ (List.mem_append_left _ ht) _ (List.mem_append_left _ ht')
    · exact hs₂.imp_of_mem fun ht ht' =>
        hbefore _ (List.mem_append_right _ ht) _ (List.mem_append_right _ ht')
    · intro t ht t' ht'
      rcases List.mem_cons.1 ht' with rfl | ht'
      · exact hlast t ht
      · exact hbefore t (List.mem_append_left _ ht) t' (List.mem_append_right _ ht')
          (hs t ht t' ht')
  · rcases eq_or_ne pair (callback, context) with rfl | hpair
    · rw [hself] at hp
      cases hp
      exact Nat.lt_succ_self _
    · rw [request_of_ne hpair] at hp
      exact (h.requests pair d n hp).trans (Nat.lt_succ_self _)

/-- A request inserts the pair, or replaces it. -/
theorem Agrees.request (h : spec.Agrees timers) (callback : κ) (context : γ) (due : ℤ) :
    (spec.request (callback, context) due).Agrees
      ((timers.eraseP (EventTimer.isFor callback context)).orderedInsert
        (fun a b => a.due < b.due) ⟨due, callback, context⟩) := by
  have hnew := (h.cancel callback context).insert (cancel_self ..) due
  rwa [TimerSpec.request, TimerSpec.cancel, Function.update_idem] at hnew

/-- No pair is left where the time of day counts as not looked up. -/
def lookUp (spec : TimerSpec κ γ) (present : ℤ) : TimerSpec κ γ :=
  if present = 0 then spec.clear else spec

omit [DecidableEq κ] [DecidableEq γ] in
theorem Agrees.lookUp {q : TimerQueue κ γ} (h : spec.Agrees q.timers) (now : ℤ) :
    (spec.lookUp q.present).Agrees (if q.present = 0 then eventTimeInit now else q).timers := by
  unfold TimerSpec.lookUp
  split
  · exact agrees_clear spec
  · exact h

/-- `event_request_timer` inserts or replaces the pair in what is left. -/
theorem Agrees.requestTimer {q q' : TimerQueue κ γ} (h : spec.Agrees q.timers) {callback : κ}
    {context : γ} {delay now due : ℤ}
    (hr : eventRequestTimer q callback context delay now = .ok (due, q')) :
    due = now + delay ∧
      ((spec.lookUp q.present).request (callback, context) due).Agrees q'.timers := by
  have h' := h.lookUp now
  unfold eventRequestTimer at hr
  simp only at hr
  split at hr
  · cases hr
  · obtain ⟨rfl, rfl⟩ := Prod.mk.inj (Except.ok.inj hr)
    exact ⟨rfl, h'.request callback context _⟩

/-- `event_cancel_timer` removes the pair from what is left, and says whether it was there. -/
theorem Agrees.cancelTimer {q : TimerQueue κ γ} (h : spec.Agrees q.timers) (callback : κ)
    (context : γ) (now : ℤ) :
    (0 ≤ (eventCancelTimer q callback context now).1 ↔
      (spec.lookUp q.present).pending (callback, context) ≠ none) ∧
    ((spec.lookUp q.present).cancel (callback, context)).Agrees
      (eventCancelTimer q callback context now).2.timers := by
  have h' := h.lookUp now
  unfold eventCancelTimer
  generalize (if q.present = 0 then eventTimeInit now else q) = q at *
  generalize spec.lookUp _ = spec at *
  have hcancel := h'.cancel callback context
  cases hfind : q.timers.find? (EventTimer.isFor callback context) with
  | none =>
    have hnone := List.find?_eq_none.1 hfind
    rw [List.eraseP_of_forall_not hnone] at hcancel
    refine ⟨iff_of_false (by simp [hfind]) (not_not.2 ?_), by simpa [hfind] using hcancel⟩
    by_contra hne
    obtain ⟨⟨d, n⟩, hp⟩ := Option.ne_none_iff_exists'.1 hne
    exact hnone _ (h'.mem _ _ _ hp) (by simp [EventTimer.isFor])
  | some t =>
    have hfor : t.pair = (callback, context) := by
      simpa [EventTimer.isFor, EventTimer.pair] using List.find?_some hfind
    obtain ⟨n, hn⟩ := h'.pending t (List.mem_of_find?_eq_some hfind)
    rw [hfor] at hn
    simp only [hfind]
    refine ⟨iff_of_true ?_ (by simp [hn]), hcancel⟩
    split <;> omega

/-- The first timer of the queue is taken off. -/
theorem Agrees.first {t : EventTimer κ γ} (h : spec.Agrees (t :: timers)) :
    (spec.cancel t.pair).Agrees timers := by
  have hcancel := h.cancel t.callback t.context
  rwa [List.eraseP_cons_of_pos (by simp [EventTimer.isFor])] at hcancel

end TimerSpec

end Nowra
