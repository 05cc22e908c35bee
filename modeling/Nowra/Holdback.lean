import Nowra.Throttle
import Nowra.TimerSpec

/-!
# How long a service is throttled

`master_throttle` requests a release `throttle_delay` seconds after the clock's reading, and the
dispatch of `event_wait` releases the service when the timer is due. A call never releases a
service and throttles it again (`World.Throttles`, `World.Frees`), so a service that is throttled
has the timer of the call that has throttled it last.

The timers do not release it before `var_throttle_time` is over, and a pass of the dispatch that
ends after that time does (`held_back`). What releases it earlier is `master_unthrottle` at the end
of `master_delete_children`.
-/

namespace Nowra

open World

/-! ## The timers in a queue -/

section

variable {κ γ : Type} [DecidableEq κ] [DecidableEq γ] {q : TimerQueue κ γ} {callback : κ}
  {context : γ}

/-- The queue agrees with a map. -/
def TimerQueue.Agreed (q : TimerQueue κ γ) : Prop :=
  ∃ spec : TimerSpec κ γ, spec.Agrees q.timers

theorem TimerQueue.Agreed.request (h : q.Agreed) {delay now : ℤ} {r : ℤ × TimerQueue κ γ}
    (hr : eventRequestTimer q callback context delay now = .ok r) : r.2.Agreed := by
  obtain ⟨spec, hspec⟩ := h
  obtain ⟨due, q'⟩ := r
  exact ⟨_, (hspec.requestTimer hr).2⟩

theorem TimerQueue.Agreed.cancel (h : q.Agreed) (callback : κ) (context : γ) (now : ℤ) :
    (eventCancelTimer q callback context now).2.Agreed := by
  obtain ⟨spec, hspec⟩ := h
  exact ⟨_, (hspec.cancelTimer callback context now).2⟩

omit [DecidableEq κ] [DecidableEq γ] in
/-- No timer is due before the first. -/
theorem TimerQueue.Agreed.first_le (h : q.Agreed) {first : EventTimer κ γ}
    {timers : List (EventTimer κ γ)} (htimers : q.timers = first :: timers) :
    ∀ timer ∈ q.timers, first.due ≤ timer.due := by
  obtain ⟨spec, hspec⟩ := h
  rw [htimers] at hspec ⊢
  intro timer hmem
  rcases List.mem_cons.1 hmem with rfl | hmem
  · exact le_rfl
  · exact (List.rel_of_pairwise_cons hspec.sorted hmem).le

omit [DecidableEq κ] [DecidableEq γ] in
/-- There is one timer for a pair. -/
theorem TimerQueue.Agreed.due_eq (h : q.Agreed) {due due' : ℤ}
    (hdue : ⟨due, callback, context⟩ ∈ q.timers) (hdue' : ⟨due', callback, context⟩ ∈ q.timers) :
    due = due' := by
  obtain ⟨spec, hspec⟩ := h
  have heq := List.inj_on_of_nodup_map hspec.pairs hdue hdue' rfl
  exact congrArg EventTimer.due heq

/-- Without the first timer it still does. -/
theorem TimerQueue.Agreed.first {q' : TimerQueue κ γ} (h : q.Agreed) {first : EventTimer κ γ}
    (htimers : q.timers = first :: q'.timers) : q'.Agreed := by
  obtain ⟨spec, hspec⟩ := h
  rw [htimers] at hspec
  exact ⟨_, hspec.first⟩

/-- A request adds a timer for its pair, and keeps those for others. -/
theorem mem_of_eventRequestTimer (h : q.LookedUp) {delay now : ℤ} {r : ℤ × TimerQueue κ γ}
    (hr : eventRequestTimer q callback context delay now = .ok r) :
    ⟨now + delay, callback, context⟩ ∈ r.2.timers ∧
      ∀ timer ∈ q.timers, timer.isFor callback context = false → timer ∈ r.2.timers := by
  have htimers := h.timers now
  unfold eventRequestTimer at hr
  simp only at hr
  split at hr
  · cases hr
  obtain rfl := Except.ok.inj hr
  refine ⟨(List.mem_orderedInsert _).2 (.inl rfl), fun timer hmem hother => ?_⟩
  refine (List.mem_orderedInsert _).2 (.inr ((List.mem_eraseP_of_neg (by simp [hother])).2 ?_))
  exact htimers ▸ hmem

/-- A cancel keeps the timers for other pairs. -/
theorem mem_of_eventCancelTimer (h : q.LookedUp) (now : ℤ) {timer : EventTimer κ γ}
    (hmem : timer ∈ q.timers) (hother : timer.isFor callback context = false) :
    timer ∈ (eventCancelTimer q callback context now).2.timers := by
  rw [eventCancelTimer_eq]
  refine (List.mem_eraseP_of_neg (by simp [hother])).2 ?_
  exact (h.timers now) ▸ hmem

end

/-! ## What the calls do to the releases -/

namespace World

/-- The release of a service is due at `due`. -/
def ReleaseAt (w : World) (s : ServPtr) (due : ℤ) : Prop :=
  ⟨due, .masterUnthrottleWrapper, s⟩ ∈ w.timers.timers

/-- No service is released. Those that are throttled get a timer at a reading of the clock. -/
structure Throttles (clock : ℤ → Prop) (w w' : World) : Prop where
  lookedUp : w'.timers.LookedUp
  agreed : w.timers.Agreed → w'.timers.Agreed
  nextServ : w'.nextServ = w.nextServ
  delay : ∀ s, (w'.serv s).throttleDelay = (w.serv s).throttleDelay
  kept : ∀ s, (w.serv s).flags.throttle = true → (w'.serv s).flags.throttle = true ∧
    ∀ due, w.ReleaseAt s due → w'.ReleaseAt s due
  new : ∀ s, (w.serv s).flags.throttle = false → (w'.serv s).flags.throttle = true →
    ∃ now, clock now ∧ w'.ReleaseAt s (now + (w.serv s).throttleDelay)

/-- No service is throttled, and those in `freed` may be released. Those that stay throttled keep
their timers. -/
structure Frees (freed : ServPtr → Prop) (w w' : World) : Prop where
  agreed : w.timers.Agreed → w'.timers.Agreed
  nextServ : w'.nextServ = w.nextServ
  delay : ∀ s, (w'.serv s).throttleDelay = (w.serv s).throttleDelay
  kept : ∀ s, (w'.serv s).flags.throttle = true → (w.serv s).flags.throttle = true ∧
    ∀ due, w.ReleaseAt s due → w'.ReleaseAt s due
  still : ∀ s, ¬freed s → (w.serv s).flags.throttle = true → (w'.serv s).flags.throttle = true

section

variable {clock : ℤ → Prop} {freed : ServPtr → Prop} {w w' w'' : World} {s : ServPtr} {now : ℤ}

theorem Throttles.of_eq (hw : w.timers.LookedUp) (htimers : w'.timers = w.timers)
    (hnext : w'.nextServ = w.nextServ)
    (hserv : ∀ t, (w'.serv t).throttleDelay = (w.serv t).throttleDelay ∧
      (w'.serv t).flags.throttle = (w.serv t).flags.throttle) : w.Throttles clock w' where
  lookedUp := htimers ▸ hw
  agreed h := htimers ▸ h
  nextServ := hnext
  delay t := (hserv t).1
  kept t ht := ⟨(hserv t).2.trans ht, fun due hdue => by rwa [ReleaseAt, htimers]⟩
  new t hfalse htrue := by
    rw [(hserv t).2, hfalse] at htrue
    cases htrue

theorem Throttles.refl (hw : w.timers.LookedUp) : w.Throttles clock w :=
  .of_eq hw rfl rfl fun _ => ⟨rfl, rfl⟩

theorem Throttles.trans (h : w.Throttles clock w') (h' : w'.Throttles clock w'') :
    w.Throttles clock w'' where
  lookedUp := h'.lookedUp
  agreed hq := h'.agreed (h.agreed hq)
  nextServ := h'.nextServ.trans h.nextServ
  delay t := (h'.delay t).trans (h.delay t)
  kept t ht := ⟨(h'.kept t (h.kept t ht).1).1,
    fun due hdue => (h'.kept t (h.kept t ht).1).2 due ((h.kept t ht).2 due hdue)⟩
  new t hfalse htrue := by
    by_cases ht : (w'.serv t).flags.throttle = true
    · obtain ⟨now, hnow, hdue⟩ := h.new t hfalse ht
      exact ⟨now, hnow, (h'.kept t ht).2 _ hdue⟩
    · obtain ⟨now, hnow, hdue⟩ := h'.new t (by simpa using ht) htrue
      exact ⟨now, hnow, h.delay t ▸ hdue⟩

theorem Frees.of_eq (htimers : w'.timers = w.timers) (hnext : w'.nextServ = w.nextServ)
    (hserv : ∀ t, (w'.serv t).throttleDelay = (w.serv t).throttleDelay ∧
      (w'.serv t).flags.throttle = (w.serv t).flags.throttle) : Frees freed w w' where
  agreed h := htimers ▸ h
  nextServ := hnext
  delay t := (hserv t).1
  kept t ht := ⟨(hserv t).2.symm.trans ht, fun due hdue => by rwa [ReleaseAt, htimers]⟩
  still t _ ht := (hserv t).2.trans ht

theorem Frees.trans (h : Frees freed w w') (h' : Frees freed w' w'') : Frees freed w w'' where
  agreed hq := h'.agreed (h.agreed hq)
  nextServ := h'.nextServ.trans h.nextServ
  delay t := (h'.delay t).trans (h.delay t)
  kept t ht := ⟨(h.kept t (h'.kept t ht).1).1,
    fun due hdue => (h'.kept t ht).2 due ((h.kept t (h'.kept t ht).1).2 due hdue)⟩
  still t ht hthr := h'.still t ht (h.still t ht hthr)

/-- `master_avail_listen` leaves the services throttled as they are. -/
theorem Rearmed.same (h : w.Rearmed w' s) : w'.timers = w.timers ∧ w'.nextServ = w.nextServ ∧
    ∀ t, (w'.serv t).throttleDelay = (w.serv t).throttleDelay ∧
      (w'.serv t).flags.throttle = (w.serv t).flags.throttle := by
  refine ⟨(congrArg World.timers h.eq :), (congrArg World.nextServ h.eq :), fun t =>
    ⟨?_, h.throttle t⟩⟩
  rw [h.eq]
  rcases eq_or_ne t s with rfl | ht
  · simp
  · simp [ht]

theorem masterThrottle_throttles (hw : w.timers.LookedUp) (h : masterThrottle w s now = .ok w')
    (hnow : clock now) (hne : now ≠ 0) : w.Throttles clock w' := by
  unfold masterThrottle at h
  split at h
  · obtain rfl := Except.ok.inj h
    exact .refl hw
  rename_i hthr
  obtain ⟨r, hr, h⟩ := bind_ok_iff.1 h
  obtain rfl := Except.ok.inj h
  rw [updServ_self] at hr
  obtain ⟨hself, hother⟩ := mem_of_eventRequestTimer hw hr
  have hpresent := (eventRequestTimer_countFor hr).1
  refine ⟨fun hzero => (hne (hpresent ▸ hzero)).elim, fun hq => hq.request hr, rfl, fun t => ?_,
    fun t ht => ?_, fun t hfalse htrue => ?_⟩
  · rcases eq_or_ne t s with rfl | hts <;> simp [updServ, *]
  · -- the service itself was not throttled
    have hts : t ≠ s := fun heq => hthr (heq ▸ ht)
    refine ⟨by simp [updServ, hts, ht], fun due hdue => hother _ hdue ?_⟩
    simp [EventTimer.isFor, hts]
  · rcases eq_or_ne t s with rfl | hts
    · exact ⟨now, hnow, hself⟩
    · simp [updServ, hts, hfalse] at htrue

/-- A release keeps the timers of the other services. -/
theorem released_frees (hw : w.timers.LookedUp) : Frees (s = ·) w (w.released s now) where
  agreed h := h.cancel _ s now
  nextServ := rfl
  delay t := by rcases eq_or_ne t s with rfl | hts <;> simp [released, updServ, *]
  kept t ht := by
    have hts : t ≠ s := by
      rintro rfl
      simp [released, updServ] at ht
    refine ⟨by simpa [released, updServ, hts] using ht, fun due hdue => ?_⟩
    exact mem_of_eventCancelTimer hw now hdue (by simp [EventTimer.isFor, hts])
  still t hts ht := by simpa [released, updServ, Ne.symm hts] using ht

theorem masterUnthrottle_frees (hw : w.timers.LookedUp) (h : masterUnthrottle w s now = .ok w') :
    Frees (s = ·) w w' := by
  rcases masterUnthrottle_ok h with ⟨-, hre⟩ | ⟨-, rfl⟩
  · obtain ⟨htimers, hnext, hserv⟩ := hre.same
    exact (released_frees hw).trans (.of_eq htimers hnext hserv)
  · exact .of_eq rfl rfl fun _ => ⟨rfl, rfl⟩

/-- Only a failed `fork` throttles. -/
theorem masterSpawn_throttles {fork : Option MasterPid} (hw : w.timers.LookedUp)
    (h : masterSpawn w s fork now = .ok w') (hnow : clock now) (hne : now ≠ 0) :
    w.Throttles clock w' := by
  obtain ⟨-, ⟨-, hthr⟩ | ⟨pid, v, -, hre, rfl⟩⟩ := masterSpawn_ok h
  · have htabled : w.Throttles clock w.tabled := .of_eq hw rfl rfl fun _ => ⟨rfl, rfl⟩
    exact htabled.trans (masterThrottle_throttles htabled.lookedUp hthr hnow hne)
  · obtain ⟨htimers, hnext, hserv⟩ := hre.same
    refine .of_eq hw htimers hnext fun t => ?_
    have hold := hserv t
    rcases eq_or_ne t s with rfl | hts
    · simpa [updServ, more, forked, updProc] using hold
    · simpa [updServ, more, forked, updProc, hts] using hold

theorem masterDeleteChild_throttles {p : ProcPtr} (hw : w.timers.LookedUp)
    (h : masterDeleteChild w p = .ok w') : w.Throttles clock w' := by
  obtain ⟨v, -, heq, hcases⟩ := masterDeleteChild_ok h
  have hdrop : ∀ t, ((w.dropped (w.proc p).serv).serv t).throttleDelay = (w.serv t).throttleDelay ∧
      ((w.dropped (w.proc p).serv).serv t).flags.throttle = (w.serv t).flags.throttle := by
    intro t
    rcases eq_or_ne t (w.proc p).serv with rfl | hts <;> simp [dropped, updServ, *]
  have hless : ∀ t, (((w.dropped (w.proc p).serv).less (w.proc p).serv p).serv t).throttleDelay =
        (w.serv t).throttleDelay ∧
      (((w.dropped (w.proc p).serv).less (w.proc p).serv p).serv t).flags.throttle =
        (w.serv t).flags.throttle := by
    intro t
    rcases eq_or_ne t (w.proc p).serv with rfl | hts <;>
      simp [dropped, less, updServ, updProc, *]
  have hv : v.timers = w.timers ∧ v.nextServ = w.nextServ ∧ ∀ t,
      (v.serv t).throttleDelay = (w.serv t).throttleDelay ∧
        (v.serv t).flags.throttle = (w.serv t).flags.throttle := by
    rcases hcases with ⟨-, hre⟩ | ⟨-, hre⟩ | ⟨-, rfl, -⟩
    · obtain ⟨htimers, hnext, hserv⟩ := hre.same
      exact ⟨htimers, hnext, fun t =>
        ⟨(hserv t).1.trans (hless t).1, (hserv t).2.trans (hless t).2⟩⟩
    · obtain ⟨htimers, hnext, hserv⟩ := hre.same
      exact ⟨htimers, hnext, fun t =>
        ⟨(hserv t).1.trans (hdrop t).1, (hserv t).2.trans (hdrop t).2⟩⟩
    · exact ⟨rfl, rfl, hdrop⟩
  rw [heq]
  exact .of_eq hw hv.1 hv.2.1 hv.2.2

theorem masterReapChild_throttles {dead : List Waited} : ∀ {w w' : World},
    w.timers.LookedUp → masterReapChild w dead = .ok w' →
      (∀ d ∈ dead, clock d.now ∧ d.now ≠ 0) → w.Throttles clock w' := by
  induction dead with
  | nil =>
    intro w w' hw h _
    obtain rfl := Except.ok.inj h
    exact .refl hw
  | cons d dead ih =>
    intro w w' hw h hnow
    obtain ⟨v, hv, h⟩ := bind_ok_iff.1 h
    obtain ⟨p, u, -, hu, hdel⟩ := masterReap_ok hv
    have hthrottled : w.Throttles clock u := by
      rcases hu with hthr | rfl
      · exact masterThrottle_throttles hw hthr (hnow d (by simp)).1 (hnow d (by simp)).2
      · exact .refl hw
    have hreaped := hthrottled.trans (masterDeleteChild_throttles hthrottled.lookedUp hdel)
    exact hreaped.trans (ih hreaped.lookedUp h fun d' hd' => hnow d' (by simp [hd']))

theorem masterStatusEvent_throttles {event : ℤ} {read : StatusRead} (hw : w.timers.LookedUp)
    (h : masterStatusEvent w event s read = .ok w') : w.Throttles clock w' := by
  obtain rfl | ⟨stat, p, -, -, -, -, ⟨-, hmore⟩ | ⟨-, hless⟩⟩ := masterStatusEvent_ok h
  · exact .refl hw
  · obtain ⟨htimers, hnext, hserv⟩ := (masterAvailMore_ok hmore).2.same
    refine .of_eq hw htimers hnext fun t => ?_
    have hold := hserv t
    rcases eq_or_ne t s with rfl | hts
    · simpa [updServ, more, updProc] using hold
    · simpa [updServ, more, updProc, hts] using hold
  · obtain ⟨htimers, hnext, hserv⟩ := (masterAvailLess_ok hless).2.same
    refine .of_eq hw htimers hnext fun t => ?_
    have hold := hserv t
    rcases eq_or_ne t s with rfl | hts
    · simpa [updServ, less, updProc] using hold
    · simpa [updServ, less, updProc, hts] using hold

theorem masterAvailEvent_throttles {event : ℤ} {fork : Option MasterPid} (hw : w.timers.LookedUp)
    (h : masterAvailEvent w event s fork now = .ok w') (hnow : clock now) (hne : now ≠ 0) :
    w.Throttles clock w' := by
  obtain ⟨-, rfl⟩ | ⟨-, -, heq, -⟩ | ⟨-, -, hspawn⟩ := masterAvailEvent_ok h
  · exact .refl hw
  · rw [heq]
    exact .of_eq hw rfl rfl fun _ => ⟨rfl, rfl⟩
  · exact masterSpawn_throttles hw hspawn hnow hne

theorem clocked_throttles (hne : now ≠ 0) : w.Throttles clock (w.clocked now) where
  lookedUp hzero := (hne hzero).elim
  agreed := id
  nextServ := rfl
  delay _ := rfl
  kept _ ht := ⟨ht, fun _ => id⟩
  new t hfalse htrue := by
    rw [show (w.clocked now).serv t = w.serv t from rfl, hfalse] at htrue
    cases htrue

/-- The children of a service are reaped while it is throttled. -/
theorem reap_throttled {t u r : World} {dead : List Waited} (hw : w.timers.LookedUp)
    (ht : masterThrottle w s now = .ok t) (hu : masterReapChild t dead = .ok u)
    (hr : masterUnthrottle u s now = .ok r)
    (hclock : ∀ n ∈ now :: dead.map (·.now), clock n ∧ n ≠ 0) :
    w.Throttles clock u ∧ Frees (s = ·) u r := by
  have hnow := hclock now List.mem_cons_self
  have hthrottled := masterThrottle_throttles hw ht hnow.1 hnow.2
  have hreaped := masterReapChild_throttles hthrottled.lookedUp hu fun d hd =>
    hclock d.now (List.mem_cons_of_mem _ (List.mem_map_of_mem hd))
  exact ⟨hthrottled.trans hreaped, masterUnthrottle_frees hreaped.lookedUp hr⟩

/-- The timer that leaves the queue is for a service that it releases, or for none. -/
theorem masterTimer_frees (hw : w.timers.LookedUp) (h : masterTimer w now = .ok w') :
    Frees (fun _ => True) w w' := by
  unfold masterTimer at h
  split at h
  · obtain rfl := Except.ok.inj h
    exact .of_eq rfl rfl fun _ => ⟨rfl, rfl⟩
  rename_i timer timers hfirst
  obtain ⟨hpresent, htimers⟩ := eventFirstTimer_some hfirst
  have hlooked : timers.LookedUp := fun hzero => by
    have hnil := hw (hpresent ▸ hzero)
    simp [htimers] at hnil
  have htail : w.timers.Agreed → timers.Agreed := fun hq => hq.first htimers
  have hrest : ∀ t due, (timer.callback, timer.context) ≠ (.masterUnthrottleWrapper, t) →
      w.ReleaseAt t due → ({ w with timers := timers } : World).ReleaseAt t due := by
    intro t due hne hdue
    rw [ReleaseAt, htimers] at hdue
    refine (List.mem_cons.1 hdue).resolve_left fun heq => hne ?_
    rw [← heq]
  split at h
  · rename_i hcb
    have hfree := masterUnthrottle_frees hlooked h
    refine ⟨fun hq => hfree.agreed (htail hq), hfree.nextServ, hfree.delay,
      fun t ht => ⟨(hfree.kept t ht).1, fun due hdue => ?_⟩, fun _ hno => (hno trivial).elim⟩
    refine (hfree.kept t ht).2 due (hrest t due (fun heq => ?_) hdue)
    -- the service of the timer is not throttled after it
    obtain rfl := (Prod.mk.inj heq).2
    rcases masterUnthrottle_ok h with ⟨-, hre⟩ | ⟨hthr, rfl⟩
    · rw [hre.throttle] at ht
      simp [released, updServ] at ht
    · rw [hthr] at ht
      cases ht
  · rename_i id hcb
    obtain rfl := Except.ok.inj h
    refine ⟨htail, rfl, fun _ => rfl, fun t ht => ⟨ht, fun due hdue => hrest t due (fun heq => ?_)
      hdue⟩, fun _ hno => (hno trivial).elim⟩
    rw [hcb] at heq
    cases heq

/-- The timer that is taken off is due, and nothing but its service is released. -/
theorem due_of_masterTimer (hq : w.timers.Agreed) {due : ℤ} (hdue : w.ReleaseAt s due)
    (h : masterTimer w now = .ok w') (hthr : (w.serv s).flags.throttle = true)
    (hfree : (w'.serv s).flags.throttle = false) : due ≤ w.timers.present := by
  unfold masterTimer at h
  split at h
  · obtain rfl := Except.ok.inj h
    rw [hthr] at hfree
    cases hfree
  rename_i timer timers hfirst
  obtain ⟨-, htimers⟩ := eventFirstTimer_some hfirst
  have htime : timer.due ≤ w.timers.present := by
    unfold eventFirstTimer at hfirst
    rw [htimers] at hfirst
    dsimp only at hfirst
    split at hfirst
    · cases hfirst
    · rename_i hle
      exact not_lt.1 hle
  split at h
  · rename_i hcb
    obtain ⟨hs, hre⟩ | ⟨-, rfl⟩ := masterUnthrottle_ok h
    · rcases eq_or_ne s timer.context with rfl | hne
      · have hfor : ⟨timer.due, .masterUnthrottleWrapper, timer.context⟩ ∈ w.timers.timers := by
          rw [← hcb, htimers]
          exact List.mem_cons_self
        rwa [hq.due_eq hdue hfor]
      · rw [hre.throttle] at hfree
        simp [released, updServ, hne, hthr] at hfree
    · rw [hthr] at hfree
      cases hfree
  · obtain rfl := Except.ok.inj h
    rw [hthr] at hfree
    cases hfree

theorem masterTimer_present (hpresent : w.timers.present ≠ 0) (h : masterTimer w now = .ok w') :
    w'.timers.present = w.timers.present := by
  unfold masterTimer at h
  split at h
  · obtain rfl := Except.ok.inj h
    rfl
  rename_i timer timers hfirst
  obtain ⟨hsame, -⟩ := eventFirstTimer_some hfirst
  split at h
  · obtain ⟨-, hre⟩ | ⟨-, rfl⟩ := masterUnthrottle_ok h
    · rw [hre.same.1, released, eventCancelTimer_eq]
      dsimp only
      rw [TimerQueue.looked, if_neg (hsame ▸ hpresent), hsame]
    · exact hsame
  · obtain rfl := Except.ok.inj h
    exact hsame

end

end World

/-! ## Runs -/

/-- Every service is throttled for the same time. -/
def World.Delayed (w : World) : Prop :=
  ∀ s < w.nextServ, (w.serv s).throttleDelay = varThrottleTime

/-- What holds between the handlers. -/
structure Family.Timed (m : Family) : Prop where
  managed : m.Managed
  releases : m.world.Releases
  agreed : m.world.timers.Agreed
  delayed : m.world.Delayed

theorem timed_init : Family.Timed ⟨masterInit, ∅⟩ where
  managed := managed_init
  releases := releases_init
  agreed := ⟨_, TimerSpec.agrees_clear ⟨fun _ => none, 0⟩⟩
  delayed s hs := (Nat.not_lt_zero s hs).elim

/-- The calls that release the service, or may. -/
def ReleaseOp.Releases : ReleaseOp → ServPtr → Prop
  | .master (.call (.timer _)) => fun _ => True
  | .master (.call (.unthrottle s _)) | .master (.remove s _ _) | .deleteChildren s _ _ => (s = ·)
  | _ => fun _ => False

/-- What a step leaves : a service that is throttled was throttled before it and has the same
timer, or was not and has one for a reading of the clock in the step. -/
structure World.Keeping (clock : ℤ → Prop) (freed : ServPtr → Prop) (w w' : World) : Prop where
  agreed : w'.timers.Agreed
  delayed : w'.Delayed
  held : ∀ s, (w'.serv s).flags.throttle = true →
    ((w.serv s).flags.throttle = true ∧ ∀ due, w.ReleaseAt s due → w'.ReleaseAt s due) ∨
      (w.serv s).flags.throttle = false ∧
        ∃ now, clock now ∧ w'.ReleaseAt s (now + varThrottleTime)
  still : ∀ s < w.nextServ, ¬freed s → (w.serv s).flags.throttle = true →
    (w'.serv s).flags.throttle = true

namespace World

variable {clock : ℤ → Prop} {freed : ServPtr → Prop} {w v w' : World}

/-- A step that throttles services and then releases some. -/
theorem Throttles.keeping (hq : w.timers.Agreed) (hdelay : w.Delayed) (h : w.Throttles clock v)
    (h' : Frees freed v w') (hfresh : ∀ s, (w'.serv s).flags.throttle = true → s < w'.nextServ) :
    Keeping clock freed w w' where
  agreed := h'.agreed (h.agreed hq)
  delayed s hs := by
    rw [h'.nextServ, h.nextServ] at hs
    rw [h'.delay, h.delay, hdelay s hs]
  held s hs := by
    obtain ⟨hv, hkept⟩ := h'.kept s hs
    by_cases hthr : (w.serv s).flags.throttle = true
    · exact .inl ⟨hthr, fun due hdue => hkept due ((h.kept s hthr).2 due hdue)⟩
    · have hfalse : (w.serv s).flags.throttle = false := by simpa using hthr
      obtain ⟨now, hnow, hdue⟩ := h.new s hfalse hv
      have hlt := hfresh s hs
      rw [h'.nextServ, h.nextServ] at hlt
      rw [hdelay s hlt] at hdue
      exact .inr ⟨hfalse, now, hnow, hkept _ hdue⟩
  still s _ hno hs := h'.still s hno (h.kept s hs).1

theorem Throttles.keeping' (hq : w.timers.Agreed) (hdelay : w.Delayed) (h : w.Throttles clock w')
    (hfresh : ∀ s, (w'.serv s).flags.throttle = true → s < w'.nextServ) :
    Keeping clock freed w w' :=
  h.keeping hq hdelay (.of_eq rfl rfl fun _ => ⟨rfl, rfl⟩) hfresh

/-- A step that leaves the timers alone and throttles nobody. -/
theorem Keeping.of_eq (hq : w.timers.Agreed) (htimers : w'.timers = w.timers)
    (hdelay : w'.Delayed)
    (hthr : ∀ s, (w'.serv s).flags.throttle = true → (w.serv s).flags.throttle = true)
    (hstill : ∀ s < w.nextServ, (w.serv s).flags.throttle = true →
      (w'.serv s).flags.throttle = true) : Keeping clock freed w w' where
  agreed := htimers ▸ hq
  delayed := hdelay
  held s hs := .inl ⟨hthr s hs, fun due hdue => by rwa [ReleaseAt, htimers]⟩
  still s hlt _ hs := hstill s hlt hs

/-- A service that is started is not throttled. -/
theorem Started.keeping {ent : MasterEnt} {fds : ServFds} (hq : w.timers.Agreed)
    (hdelay : w.Delayed) (h : w.Started w' ent fds) : Keeping clock freed w w' := by
  refine .of_eq hq (congrArg World.timers h.eq :) (fun s hs => ?_) (fun s hs => ?_)
    fun s hlt hs => by rwa [h.serv_of_ne hlt.ne]
  · rcases eq_or_ne s w.nextServ with rfl | hne
    · rw [h.serv_self]
      rfl
    · rw [h.serv_of_ne hne]
      rw [h.nextServ] at hs
      exact hdelay s (lt_of_le_of_ne (Nat.le_of_lt_succ hs) hne)
  · rcases eq_or_ne s w.nextServ with rfl | hne
    · rw [h.serv_self] at hs
      cases hs
    · rwa [h.serv_of_ne hne] at hs

end World

/-- Every step keeps the releases of the services that it leaves throttled. -/
theorem Family.Timed.keeping {m m' : Family} {op : ReleaseOp} (h : m.Timed)
    (hnow : ∀ now ∈ op.readings, now ≠ 0) (hst : releaseSystem.step m op m') :
    Keeping (· ∈ op.readings) op.Releases m.world m'.world := by
  have hfresh := (h.releases.releaseStep h.managed hnow hst).fresh
  have hlooked := h.releases.lookedUp
  obtain ⟨hallow, hexec, -⟩ := hst
  cases op with
  | master op =>
    cases op with
    | call op =>
      have hw' := ok_of_map_some hexec
      cases op with
      | start ent fds =>
        exact (masterConfigNew_ok hw' hallow.1.read.2.2).keeping h.agreed h.delayed
      | spawn s fork now =>
        have hin : now ∈ [now] := List.mem_singleton_self now
        exact (masterSpawn_throttles hlooked hw' hin (hnow now hin)).keeping' h.agreed h.delayed
          hfresh
      | throttle s now =>
        have hin : now ∈ [now] := List.mem_singleton_self now
        exact (masterThrottle_throttles hlooked hw' hin (hnow now hin)).keeping' h.agreed h.delayed
          hfresh
      | unthrottle s now =>
        exact (Throttles.refl hlooked).keeping h.agreed h.delayed
          (masterUnthrottle_frees hlooked hw') hfresh
      | availEvent s fork now =>
        have hin : now ∈ [now] := List.mem_singleton_self now
        exact (masterAvailEvent_throttles hlooked hw' hin (hnow now hin)).keeping' h.agreed
          h.delayed hfresh
      | statusEvent s read =>
        exact (masterStatusEvent_throttles hlooked hw').keeping' h.agreed h.delayed hfresh
      | reapChild dead =>
        refine (masterReapChild_throttles hlooked hw' fun d hd => ?_).keeping' h.agreed h.delayed
          hfresh
        have hin : d.now ∈ dead.map (·.now) := List.mem_map_of_mem hd
        exact ⟨hin, hnow _ hin⟩
      | timer now =>
        have hne : now ≠ 0 := hnow now (List.mem_singleton_self now)
        have hclocked : m.world.Throttles (· ∈ [now]) (m.world.clocked now) :=
          clocked_throttles hne
        exact hclocked.keeping h.agreed h.delayed (masterTimer_frees hclocked.lookedUp hw') hfresh
    | mark =>
      have heq : masterMark m.world = m'.world := Option.some.inj (Except.ok.inj hexec)
      have hserv := masterMark_serv m.world
      rw [← heq]
      have hthr : ∀ s, ((masterMark m.world).serv s).flags.throttle =
          (m.world.serv s).flags.throttle := fun s => by
        obtain ⟨mark, hmark⟩ := hserv s
        rw [hmark]
      refine .of_eq h.agreed rfl (fun s hs => ?_) (fun s hs => (hthr s).symm.trans hs)
        fun s _ hs => (hthr s).trans hs
      obtain ⟨mark, hmark⟩ := hserv s
      rw [hmark]
      exact h.delayed s hs
    | entry ent fds =>
      rcases masterConfigEnt_cases hallow (ok_of_map_some hexec) with
        ⟨-, -, hst⟩ | ⟨s, -, -, -, hw'⟩
      · exact hst.keeping h.agreed h.delayed
      · have hup := masterConfigUpdate_ok hw'
        have hthr : ∀ t, (m'.world.serv t).flags.throttle = (m.world.serv t).flags.throttle := by
          intro t
          rcases eq_or_ne t s with rfl | hts
          · rw [hup.serv_self]
            rfl
          · rw [hup.serv_of_ne hts]
        refine .of_eq h.agreed (congrArg World.timers hup.eq :) (fun t ht => ?_)
          (fun t ht => (hthr t).symm.trans ht) fun t _ ht => (hthr t).trans ht
        rcases eq_or_ne t s with rfl | hts
        · rw [hup.serv_self]
          rfl
        · rw [hup.serv_of_ne hts]
          exact h.delayed t (hup.nextServ ▸ ht)
    | remove s dead now =>
      obtain ⟨hs, -, -, hall⟩ := hallow
      obtain ⟨v, t, u, r, hv, ht, hu, hr, ⟨heq, -, -, -⟩⟩ := masterRemove_ok hexec hall
      have heqv := (masterStatusCleanup_ok hv).1
      have hcleaned : m.world.Throttles (· ∈ now :: dead.flatten.map (·.now)) v := by
        rw [heqv]
        refine .of_eq hlooked rfl rfl fun x => ?_
        rcases eq_or_ne x s with rfl | hx <;> simp [*]
      obtain ⟨hthrottles, hfrees⟩ := reap_throttled hcleaned.lookedUp ht hu hr
        fun n hn => ⟨hn, hnow n hn⟩
      have hsilenced : Frees (s = ·) r m'.world := by
        rw [heq]
        refine .of_eq rfl rfl fun x => ?_
        rcases eq_or_ne x s with rfl | hx <;> simp [*]
      exact (hcleaned.trans hthrottles).keeping h.agreed h.delayed (hfrees.trans hsilenced) hfresh
  | deleteChildren s dead now =>
    obtain ⟨-, -, hall⟩ := hallow
    obtain ⟨t, u, ht, hu, hr⟩ := masterDeleteChildren_ok hexec hall
    obtain ⟨hthrottles, hfrees⟩ := reap_throttled hlooked ht hu hr fun n hn => ⟨hn, hnow n hn⟩
    exact hthrottles.keeping h.agreed h.delayed hfrees hfresh
  | request id context delay now =>
    obtain ⟨r, hr, he⟩ := bind_ok_iff.1 hexec
    rw [← Option.some.inj (Except.ok.inj he)]
    refine ⟨h.agreed.request hr, h.delayed, fun s hs => .inl ⟨hs, fun due hdue => ?_⟩,
      fun _ _ _ hs => hs⟩
    exact (mem_of_eventRequestTimer hlooked hr).2 _ hdue (by simp [EventTimer.isFor])
  | cancel id context now =>
    rw [← Option.some.inj (Except.ok.inj hexec)]
    refine ⟨h.agreed.cancel _ _ _, h.delayed, fun s hs => .inl ⟨hs, fun due hdue => ?_⟩,
      fun _ _ _ hs => hs⟩
    exact mem_of_eventCancelTimer hlooked now hdue (by simp [EventTimer.isFor])

theorem Family.Timed.step {m m' : Family} {op : ReleaseOp} (h : m.Timed)
    (hnow : ∀ now ∈ op.readings, now ≠ 0) (hst : releaseSystem.step m op m') : m'.Timed where
  managed := h.managed.releaseStep hst
  releases := h.releases.releaseStep h.managed hnow hst
  agreed := (h.keeping hnow hst).agreed
  delayed := (h.keeping hnow hst).delayed

/-- The call that has throttled the service last, with one of its readings of the clock. -/
def ThrottledSince (tr : List (Family × ReleaseOp × Family)) (s : ServPtr) (since : ℤ) : Prop :=
  ∃ pre x post, tr = pre ++ x :: post ∧ (x.1.world.serv s).flags.throttle = false ∧
    since ∈ x.2.1.readings ∧ ∀ y ∈ post, (y.1.world.serv s).flags.throttle = true

/-- A service that is throttled has the timer of the call that has throttled it. -/
theorem timed_of_run {m : Family} {tr : List (Family × ReleaseOp × Family)}
    (h : releaseSystem.Run tr m) (hclock : ∀ x ∈ tr, ∀ now ∈ x.2.1.readings, now ≠ 0) :
    m.Timed ∧ ∀ s, (m.world.serv s).flags.throttle = true →
      ∃ since, ThrottledSince tr s since ∧ m.world.ReleaseAt s (since + varThrottleTime) := by
  obtain ⟨m₀, rfl, hp⟩ := h
  induction hp with
  | nil => exact ⟨timed_init, fun s hs => (Nat.not_lt_zero s (releases_init.fresh s hs)).elim⟩
  | @snoc tr t u op hp hst ih =>
    obtain ⟨ht, hrelease⟩ := ih fun x hx => hclock x (by simp [hx])
    have hnow : ∀ now ∈ op.readings, now ≠ 0 := hclock (t, op, u) (by simp)
    refine ⟨ht.step hnow hst, fun s hs => ?_⟩
    rcases (ht.keeping hnow hst).held s hs with ⟨hthr, hkept⟩ | ⟨hfalse, now, hin, hdue⟩
    · obtain ⟨since, ⟨pre, x, post, rfl, hx, hsince, hpost⟩, hdue⟩ := hrelease s hthr
      refine ⟨since, ⟨pre, x, post ++ [(t, op, u)], by simp, hx, hsince, fun y hy => ?_⟩,
        hkept _ hdue⟩
      rcases List.mem_append.1 hy with hy | hy
      · exact hpost y hy
      · obtain rfl := List.mem_singleton.1 hy
        exact hthr
    · exact ⟨now, ⟨tr, (t, op, u), [], rfl, hfalse, hin, by simp⟩, hdue⟩

/-- When a pass of the timers has come to an end, no service is throttled whose release is due. -/
theorem World.released_of_masterTimer {w w' : World} {s : ServPtr} {due now : ℤ}
    (hw : w.timers.LookedUp) (hq : w.timers.Agreed) (hne : w.timers.present ≠ 0)
    (h : masterTimer w now = .ok w') (hdue : w.ReleaseAt s due) (hle : due ≤ w.timers.present)
    (hend : eventFirstTimer w'.timers = none) : (w'.serv s).flags.throttle = false := by
  have hfrees := masterTimer_frees hw h
  by_contra hthr
  have hmem : w'.ReleaseAt s due := (hfrees.kept s (by simpa using hthr)).2 due hdue
  unfold ReleaseAt at hmem
  unfold eventFirstTimer at hend
  split at hend
  · rename_i hnil
    simp [hnil] at hmem
  · rename_i first timers htimers
    have hfirst := (hfrees.agreed hq).first_le htimers _ hmem
    have hpresent := masterTimer_present hne h
    split at hend
    · rename_i hlt
      dsimp only at hfirst
      omega
    · cases hend

/-- In a run where the clock never reads `0`, a service that is throttled was throttled at a reading
of the clock, and is throttled since. Only a timer, `master_unthrottle` or `master_delete_children`
releases it : a timer not before `var_throttle_time` is over, and a pass of the timers after that
does. -/
theorem held_back {m : Family} {tr : List (Family × ReleaseOp × Family)} {s : ServPtr}
    (h : releaseSystem.Run tr m) (hclock : ∀ x ∈ tr, ∀ now ∈ x.2.1.readings, now ≠ 0)
    (hthr : (m.world.serv s).flags.throttle = true) :
    ∃ since, ThrottledSince tr s since ∧ ∀ op m', releaseSystem.step m op m' →
      (∀ now ∈ op.readings, now ≠ 0) →
      ((m'.world.serv s).flags.throttle = false → op.Releases s ∧
        ∀ now, op = .master (.call (.timer now)) → since + varThrottleTime ≤ now) ∧
      ∀ now, op = .master (.call (.timer now)) → since + varThrottleTime ≤ now →
        eventFirstTimer m'.world.timers = none → (m'.world.serv s).flags.throttle = false := by
  obtain ⟨hm, hrelease⟩ := timed_of_run h hclock
  obtain ⟨since, hsince, hdue⟩ := hrelease s hthr
  refine ⟨since, hsince, fun op m' hst hnow => ?_⟩
  have hkeep := hm.keeping hnow hst
  refine ⟨fun hfree => ⟨?_, ?_⟩, ?_⟩
  · by_contra hno
    rw [hkeep.still s (hm.releases.fresh s hthr) hno hthr] at hfree
    cases hfree
  · rintro now rfl
    exact due_of_masterTimer (w := m.world.clocked now) hm.agreed hdue (ok_of_map_some hst.2.1) hthr
      hfree
  · rintro now rfl hle hend
    have hne : now ≠ 0 := hnow now (List.mem_singleton_self now)
    have hlooked : (m.world.clocked now).timers.LookedUp := fun hzero => (hne hzero).elim
    exact released_of_masterTimer hlooked hm.agreed hne (ok_of_map_some hst.2.1) hdue hle hend

/-- A `fork` for `smtp` fails at `100`, and another timer is due at `105`. The pass at `110`
releases the service. -/
theorem held_back_smtp : ∃ m m' tr since, releaseSystem.Run tr m ∧
    tr.map (fun x => x.2.1) = [.master (.call (.start (smtpEnt 0) smtpFds)),
      .request 7 0 5 100, .master (.call (.availEvent 0 none 100)),
      .master (.call (.timer 105))] ∧
    (m.world.serv 0).flags.throttle = true ∧ ThrottledSince tr 0 since ∧
    releaseSystem.step m (.master (.call (.timer 110))) m' ∧ since + varThrottleTime ≤ 110 ∧
    (m'.world.serv 0).flags.throttle = false := by
  have hrun : (smtpReleases [.request 7 0 5 100, .master (.call (.availEvent 0 none 100)),
      .master (.call (.timer 105))]).any (fun m => (m.world.serv 0).flags.throttle = true ∧
        (releaseCall m (.master (.call (.timer 110)))).any
          fun m' => !(m'.world.serv 0).flags.throttle) = true := by decide +kernel
  obtain ⟨m, hm, hobs⟩ := (Option.any_eq_true _ _).1 hrun
  obtain ⟨hthr, hpass⟩ := of_decide_eq_true hobs
  obtain ⟨m', hm', hfree⟩ := (Option.any_eq_true _ _).1 hpass
  obtain ⟨tr, htr, hops⟩ := run_of_smtpReleases hm
  have hclock : ∀ x ∈ tr, ∀ now ∈ x.2.1.readings, now ≠ 0 := fun x hx => by
    have hmem : x.2.1 ∈ tr.map fun x => x.2.1 := List.mem_map_of_mem hx
    rw [hops] at hmem
    simp only [List.mem_cons, List.not_mem_nil, or_false] at hmem
    rcases hmem with he | he | he | he <;> rw [he] <;>
      simp [ReleaseOp.readings, MasterOp.readings]
  obtain ⟨since, hsince, hnext⟩ := held_back htr hclock hthr
  have hst := step_of_releaseCall hm'
  have hfalse : (m'.world.serv 0).flags.throttle = false := by simpa using hfree
  have hnow : ∀ now ∈ ReleaseOp.readings (.master (.call (.timer 110))), now ≠ 0 := by
    simp [ReleaseOp.readings, MasterOp.readings]
  obtain ⟨-, hdue⟩ := (hnext _ m' hst hnow).1 hfalse
  exact ⟨m, m', tr, since, htr, hops, hthr, hsince, hst, hdue 110 rfl, hfalse⟩

end Nowra
