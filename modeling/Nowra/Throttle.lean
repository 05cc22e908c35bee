import Nowra.Moves

/-!
# Throttled services and their releases

`master_throttle` sets `MASTER_FLAG_THROTTLE` and requests a timer that will release the service,
and `master_unthrottle` clears the flag and cancels the timer. The dispatch of `event_wait` takes
the timer off the queue before its callback clears the flag, and the callback then cancels a timer
that is not there.

Between the handlers a service is throttled if and only if its release is pending, and then it is
pending once (`release_pending`), whatever other timers there are. This needs a clock that never
reads `0`. The timer queue takes `0` for a time that was never looked up, and the next request or
cancel empties the queue (`release_lost_smtp`).
-/

namespace Nowra

open World

/-! ## Timers for one callback and context -/

section

variable {α : Type} {p q : α → Bool}

/-- An element is erased that the other predicate does not count. -/
theorem countP_eraseP_of_ne (l : List α) (h : ∀ x, p x = true → q x = false) :
    (l.eraseP p).countP q = l.countP q := by
  induction l with
  | nil => rfl
  | cons x l ih =>
    by_cases hp : p x = true
    · rw [List.eraseP_cons_of_pos hp, List.countP_cons_of_neg (by simp [h x hp])]
    · rw [List.eraseP_cons_of_neg hp, List.countP_cons, List.countP_cons, ih]

theorem countP_eraseP_self (l : List α) : (l.eraseP p).countP p = l.countP p - 1 := by
  induction l with
  | nil => rfl
  | cons x l ih =>
    by_cases hp : p x = true
    · rw [List.eraseP_cons_of_pos hp, List.countP_cons_of_pos hp, Nat.add_sub_cancel]
    · rw [List.eraseP_cons_of_neg hp, List.countP_cons_of_neg hp, List.countP_cons_of_neg hp, ih]

end

section

variable {κ γ : Type} [DecidableEq κ] [DecidableEq γ] {q : TimerQueue κ γ} {callback cb : κ}
  {context ctx : γ}

/-- How many timers for a callback and a context are in the queue. -/
def TimerQueue.countFor (q : TimerQueue κ γ) (callback : κ) (context : γ) : ℕ :=
  q.timers.countP (EventTimer.isFor callback context)

/-- The queue that a request or a cancel goes on with : an empty one if the time was never looked
up. -/
def TimerQueue.looked (q : TimerQueue κ γ) (now : ℤ) : TimerQueue κ γ :=
  if q.present = 0 then eventTimeInit now else q

/-- The time was looked up since there are timers. -/
def TimerQueue.LookedUp (q : TimerQueue κ γ) : Prop :=
  q.present = 0 → q.timers = []

omit [DecidableEq κ] [DecidableEq γ] in
theorem TimerQueue.LookedUp.timers (h : q.LookedUp) (now : ℤ) :
    (q.looked now).timers = q.timers := by
  unfold looked
  split
  · exact (h ‹_›).symm
  · rfl

theorem TimerQueue.looked_countFor_le (q : TimerQueue κ γ) (now : ℤ) (callback : κ) (context : γ) :
    (q.looked now).countFor callback context ≤ q.countFor callback context := by
  unfold looked
  split
  · exact Nat.zero_le _
  · exact le_rfl

theorem TimerQueue.LookedUp.countFor (h : q.LookedUp) (now : ℤ) (callback : κ) (context : γ) :
    (q.looked now).countFor callback context = q.countFor callback context := by
  rw [TimerQueue.countFor, TimerQueue.countFor, h.timers]

theorem isFor_of_ne (h : (cb, ctx) ≠ (callback, context)) (timer : EventTimer κ γ)
    (hfor : timer.isFor callback context = true) : timer.isFor cb ctx = false := by
  simp only [EventTimer.isFor, decide_eq_true_eq] at hfor
  simp only [EventTimer.isFor, decide_eq_false_iff_not]
  rintro ⟨rfl, rfl⟩
  exact h (Prod.ext hfor.1 hfor.2)

/-- A request leaves the timer at the clock's reading. The other callbacks and contexts keep
theirs. -/
theorem eventRequestTimer_countFor {delay now : ℤ} {r : ℤ × TimerQueue κ γ}
    (h : eventRequestTimer q callback context delay now = .ok r) : r.2.present = now ∧
      r.2.countFor callback context = (q.looked now).countFor callback context - 1 + 1 ∧
      ∀ cb ctx, (cb, ctx) ≠ (callback, context) →
        r.2.countFor cb ctx = (q.looked now).countFor cb ctx := by
  unfold eventRequestTimer at h
  simp only at h
  split at h
  · cases h
  obtain rfl := Except.ok.inj h
  refine ⟨rfl, ?_, fun cb ctx hne => ?_⟩
  · have hself : EventTimer.isFor callback context ⟨now + delay, callback, context⟩ = true := by
      simp [EventTimer.isFor]
    rw [TimerQueue.countFor, TimerQueue.countFor, (List.perm_orderedInsert _ _ _).countP_eq,
      List.countP_cons_of_pos hself, countP_eraseP_self]
    rfl
  · have hother : EventTimer.isFor cb ctx ⟨now + delay, callback, context⟩ = false :=
      isFor_of_ne hne _ (by simp [EventTimer.isFor])
    rw [TimerQueue.countFor, TimerQueue.countFor, (List.perm_orderedInsert _ _ _).countP_eq,
      List.countP_cons_of_neg (by simp [hother]), countP_eraseP_of_ne _ (isFor_of_ne hne)]
    rfl

/-- A cancel takes a timer away, if there is one. -/
theorem eventCancelTimer_eq (q : TimerQueue κ γ) (callback : κ) (context : γ) (now : ℤ) :
    (eventCancelTimer q callback context now).2 = { q.looked now with
      timers := (q.looked now).timers.eraseP (EventTimer.isFor callback context) } := by
  unfold eventCancelTimer TimerQueue.looked
  simp only
  split
  · rename_i hfind
    rw [List.find?_eq_none] at hfind
    rw [List.eraseP_of_forall_not hfind]
  · rfl

/-- The other callbacks and contexts keep theirs. -/
theorem eventCancelTimer_countFor (q : TimerQueue κ γ) (callback : κ) (context : γ) (now : ℤ) :
    (eventCancelTimer q callback context now).2.present = (q.looked now).present ∧
      (eventCancelTimer q callback context now).2.countFor callback context =
        (q.looked now).countFor callback context - 1 ∧
      ∀ cb ctx, (cb, ctx) ≠ (callback, context) →
        (eventCancelTimer q callback context now).2.countFor cb ctx =
          (q.looked now).countFor cb ctx := by
  rw [eventCancelTimer_eq]
  exact ⟨rfl, countP_eraseP_self _, fun cb ctx hne => countP_eraseP_of_ne _ (isFor_of_ne hne)⟩

omit [DecidableEq κ] [DecidableEq γ] in
/-- With readings other than `0` the time stays looked up. -/
theorem TimerQueue.looked_present_ne {now : ℤ} (hnow : now ≠ 0) (q : TimerQueue κ γ) :
    (q.looked now).present ≠ 0 := by
  unfold looked
  split
  · exact hnow
  · assumption

end

/-! ## The releases -/

namespace World

/-- How many releases of a service are pending. -/
def releases (w : World) (s : ServPtr) : ℕ :=
  w.timers.countFor .masterUnthrottleWrapper s

/-- One release is pending for each throttled service, and none for another. -/
structure Releases (w : World) : Prop where
  lookedUp : w.timers.LookedUp
  count : ∀ s, w.releases s = if (w.serv s).flags.throttle then 1 else 0
  fresh : ∀ s, (w.serv s).flags.throttle = true → s < w.nextServ

theorem Releases.le_one {w : World} (h : w.Releases) (s : ServPtr) : w.releases s ≤ 1 := by
  rw [h.count s]
  split <;> omega

theorem releases_init : masterInit.Releases where
  lookedUp _ := rfl
  count s := by simp [releases, TimerQueue.countFor, masterInit, masterServNone]
  fresh s := by simp [masterInit, masterServNone]

/-- The timers and the throttle flags are the same. -/
theorem Releases.of_eq {w w' : World} (h : w.Releases) (htimers : w'.timers = w.timers)
    (hnext : w.nextServ ≤ w'.nextServ)
    (hthr : ∀ s, (w'.serv s).flags.throttle = (w.serv s).flags.throttle) : w'.Releases where
  lookedUp := htimers ▸ h.lookedUp
  count s := by
    rw [releases, htimers, hthr]
    exact h.count s
  fresh s hs := by
    rw [hthr] at hs
    exact (h.fresh s hs).trans_le hnext

/-- A service whose flag and releases change together. -/
theorem Releases.of_flag {w w' : World} {s : ServPtr} (h : w.Releases)
    (hlooked : w'.timers.LookedUp) (hnext : w'.nextServ = w.nextServ) (hs : s < w.nextServ)
    (hself : w'.releases s = if (w'.serv s).flags.throttle then 1 else 0)
    (hother : ∀ t, t ≠ s → w'.releases t = w.releases t ∧
      (w'.serv t).flags.throttle = (w.serv t).flags.throttle) : w'.Releases where
  lookedUp := hlooked
  count t := by
    rcases eq_or_ne t s with rfl | ht
    · exact hself
    · rw [(hother t ht).1, (hother t ht).2]
      exact h.count t
  fresh t ht := by
    rw [hnext]
    rcases eq_or_ne t s with rfl | hne
    · exact hs
    · rw [(hother t hne).2] at ht
      exact h.fresh t ht

end World

/-- The pair of a release is that of no other service. -/
theorem release_ne {s t : ServPtr} (h : t ≠ s) :
    (TimerCallback.masterUnthrottleWrapper, t) ≠ (TimerCallback.masterUnthrottleWrapper, s) :=
  fun he => h (Prod.mk.inj he).2

theorem eventFirstTimer_some {w : World} {timer : EventTimer TimerCallback ServPtr}
    {timers : TimerQueue TimerCallback ServPtr}
    (h : eventFirstTimer w.timers = some (timer, timers)) :
    timers.present = w.timers.present ∧ w.timers.timers = timer :: timers.timers := by
  unfold eventFirstTimer at h
  split at h
  · cases h
  rename_i heq
  split at h
  · cases h
  obtain ⟨rfl, rfl⟩ := Prod.mk.inj (Option.some.inj h)
  exact ⟨rfl, heq⟩

/-- The first timer is one of the releases if it is for the service. -/
theorem releases_of_first {w : World} {timer : EventTimer TimerCallback ServPtr}
    {timers : TimerQueue TimerCallback ServPtr}
    (h : eventFirstTimer w.timers = some (timer, timers)) (s : ServPtr) :
    w.releases s = timers.countFor .masterUnthrottleWrapper s +
      if timer.callback = .masterUnthrottleWrapper ∧ timer.context = s then 1 else 0 := by
  simp [releases, TimerQueue.countFor, (eventFirstTimer_some h).2, List.countP_cons,
    EventTimer.isFor]

/-- Every move keeps the releases if the clock does not read `0`. -/
theorem World.Releases.move {spawns : Prop} {w w' : World}
    (h : World.Move (· ≠ 0) spawns w w') (hw : w.Releases) : w'.Releases := by
  cases h with
  | books heq hserv =>
    refine hw.of_eq (congrArg World.timers heq :) (congrArg World.nextServ heq :).ge fun t => ?_
    obtain ⟨avail, total, ht⟩ := hserv t
    rw [ht]
  | woken s =>
    refine hw.of_eq rfl le_rfl fun t => ?_
    rcases eq_or_ne t s with rfl | ht
    · rw [updServ_self]
    · rw [updServ_of_ne ht]
  | @rearm _ s hre =>
    exact hw.of_eq (congrArg World.timers hre.eq :) (congrArg World.nextServ hre.eq :).ge
      hre.throttle
  | @throttle s now r hs hnow hthr hr =>
    obtain ⟨hpresent, hself, hother⟩ := eventRequestTimer_countFor hr
    simp only [hw.lookedUp.countFor] at hself hother
    have hone := hw.le_one s
    rw [releases] at hone
    refine hw.of_flag (fun hzero => (hnow (hpresent ▸ hzero)).elim) rfl hs ?_ fun t ht => ?_
    · rw [releases, hself]
      simp only [updServ_self, if_true]
      omega
    · exact ⟨hother _ _ (release_ne ht), by simp [updServ, ht]⟩
  | @release s now hnow hthr =>
    obtain ⟨hpresent, hself, hother⟩ :=
      eventCancelTimer_countFor w.timers .masterUnthrottleWrapper s now
    simp only [hw.lookedUp.countFor] at hself hother
    have hone := hw.le_one s
    rw [releases] at hone
    refine hw.of_flag (fun hzero => ?_) rfl (hw.fresh s hthr) ?_ fun t ht => ?_
    · exact (TimerQueue.looked_present_ne hnow _ (hpresent.symm.trans hzero)).elim
    · have hcount : (w.released s now).releases s = 0 := by
        rw [releases]
        exact hself.trans (by omega)
      simpa [released, updServ] using hcount
    · exact ⟨hother _ _ (release_ne ht), by simp [released, updServ, ht]⟩
  | @expire timer timers now hfirst hnow hcb hthr =>
    -- the timer that left the queue was the only release of the service
    obtain ⟨hpres, htimers⟩ := eventFirstTimer_some hfirst
    have hcount := releases_of_first hfirst
    have hlooked : timers.LookedUp := fun hzero => by
      have hnil := hw.lookedUp (hpres ▸ hzero)
      simp [htimers] at hnil
    obtain ⟨hpresent, hself, hother⟩ :=
      eventCancelTimer_countFor timers .masterUnthrottleWrapper timer.context now
    simp only [hlooked.countFor] at hself hother
    have hone := hw.le_one timer.context
    rw [hcount, if_pos ⟨hcb, rfl⟩] at hone
    refine hw.of_flag (fun hzero => ?_) rfl (hw.fresh _ hthr) ?_ fun t ht => ?_
    · exact (TimerQueue.looked_present_ne hnow _ (hpresent.symm.trans hzero)).elim
    · have hnone : ({ w with timers := timers }.released timer.context now).releases
          timer.context = 0 := by
        rw [releases]
        exact hself.trans (by omega)
      simpa [released, updServ] using hnone
    · have hold := hcount t
      rw [if_neg fun he => ht he.2.symm] at hold
      exact ⟨(hother _ _ (release_ne ht)).trans hold.symm, by simp [released, updServ, ht]⟩
  | @drop timer timers hfirst hcb =>
    obtain ⟨hpres, htimers⟩ := eventFirstTimer_some hfirst
    have hcount := releases_of_first hfirst
    refine ⟨fun hzero => ?_, fun s => ?_, hw.fresh⟩
    · have hnil := hw.lookedUp (hpres ▸ hzero)
      simp [htimers] at hnil
    · -- a release in the queue has its service throttled
      have hother : ¬(timer.callback = .masterUnthrottleWrapper ∧ timer.context = s) := by
        rintro ⟨hrel, rfl⟩
        have hthr := hw.count timer.context
        rw [hcb hrel, hcount, if_pos ⟨hrel, rfl⟩] at hthr
        simp at hthr
      have hold := hcount s
      rw [if_neg hother] at hold
      exact hold.symm.trans (hw.count s)
  | @clocked now hnow => exact ⟨fun hzero => (hnow hzero).elim, hw.count, hw.fresh⟩
  | deafen heq hset =>
    exact hw.of_eq (congrArg World.timers heq :) (congrArg World.nextServ heq :).ge fun s =>
      congrArg (fun serv => (serv s).flags.throttle) (congrArg World.serv heq :)

theorem World.Releases.moves {spawns : Prop} {w w' : World}
    (h : World.Moves (· ≠ 0) spawns w w') (hw : w.Releases) : w'.Releases :=
  h.invariant (fun _ _ hmove hv => hv.move hmove) hw

/-- A service that is started is not throttled. -/
theorem World.Releases.start {w w' : World} {ent : MasterEnt} {fds : ServFds} (hw : w.Releases)
    (h : w.Started w' ent fds) : w'.Releases := by
  refine hw.of_eq (congrArg World.timers h.eq :) (by rw [h.nextServ]; exact Nat.le_succ _)
    fun s => ?_
  rcases eq_or_ne s w.nextServ with rfl | hs
  · rw [h.serv_self]
    by_contra hne
    exact lt_irrefl _ (hw.fresh _ ((Bool.not_eq_false _).mp fun hf => hne hf.symm))
  · rw [h.serv_of_ne hs]

/-! ## Runs -/

/-- A call or a part of a reload, a call of `master_delete_children`, or a request or a cancel of
an unrelated timer. -/
inductive ReleaseOp
  | master (op : ReloadOp)
  /-- `dead` is what each call of `master_reap_child` finds. -/
  | deleteChildren (s : ServPtr) (dead : List (List Waited)) (now : ℤ)
  | request (id : ℕ) (context : ServPtr) (delay now : ℤ)
  | cancel (id : ℕ) (context : ServPtr) (now : ℤ)

/-- What it does, nothing if a loop does not end. -/
def releaseExec (w : World) : ReleaseOp → Except Panic (Option World)
  | .master op => reloadExec w op
  | .deleteChildren s dead now => masterDeleteChildren w s dead now
  | .request id context delay now => do
    let r ← eventRequestTimer w.timers (.other id) context delay now
    pure (some { w with timers := r.2 })
  | .cancel id context now =>
    pure (some { w with timers := (eventCancelTimer w.timers (.other id) context now).2 })

/-- When it can come. -/
def ReleaseOp.Allowed (m : Family) : ReleaseOp → Prop
  | .master op => op.Allowed m
  | .deleteChildren s dead now => s ∈ m.world.masterHead ∧ WaitOk m.kids dead.flatten ∧
    ∀ n < dead.length, masterDeleteChildren m.world s (dead.take n) now = .ok none
  | .request _ _ _ _ | .cancel _ _ _ => True

/-- The pids that `waitpid` has not returned after it. -/
def ReleaseOp.kids (m : Family) : ReleaseOp → Finset MasterPid
  | .master op => op.kids m
  | .deleteChildren _ dead _ => kidsLeft m.kids dead.flatten
  | .request _ _ _ _ | .cancel _ _ _ => m.kids

/-- The readings of the clock in it. -/
def ReleaseOp.readings : ReleaseOp → List ℤ
  | .master (.call op) => op.readings
  | .master .mark | .master (.entry _ _) => []
  | .master (.remove _ dead now) | .deleteChildren _ dead now => now :: dead.flatten.map (·.now)
  | .request _ _ _ now | .cancel _ _ now => [now]

/-- The master with its children and with other timers, from its start. -/
def releaseSystem : LTS Family ReleaseOp where
  init m := m = ⟨masterInit, ∅⟩
  step m op m' :=
    op.Allowed m ∧ releaseExec m.world op = .ok (some m'.world) ∧ m'.kids = op.kids m

/-- What takes the monitors through steps and keeps the accounts keeps the master managed. -/
theorem Family.Managed.acts {m m' : Family} (h : m.Managed) (ha : m.world.ActsAll m'.world)
    (hacc : m'.world.Account m'.kids) : m'.Managed where
  account := hacc
  fds := ha.toKeeps.fdsOk h.fds
  head s hs := by
    rw [ha.head] at hs
    rw [ha.nextServ, ha.listenFd]
    exact h.head s hs
  honest s hs := by
    rw [ha.head] at hs
    exact (ha.steps h.fds s (h.head s hs).2.le).honest (h.honest s hs)

/-- Other timers leave the master alone. -/
theorem Family.Managed.timers {m : Family} (h : m.Managed)
    (timers : TimerQueue TimerCallback ServPtr) :
    Family.Managed ⟨{ m.world with timers := timers }, m.kids⟩ :=
  h.acts ⟨⟨rfl, rfl, rfl, fun _ => rfl, fun _ => rfl, fun _ => .of_eq rfl⟩, fun _ _ _ => .refl⟩
    (h.account.of_eq rfl rfl rfl rfl fun _ => ⟨rfl, rfl⟩)

theorem Family.Managed.releaseStep {m m' : Family} {op : ReleaseOp} (h : m.Managed)
    (hst : releaseSystem.step m op m') : m'.Managed := by
  obtain ⟨hallow, hexec, hkids⟩ := hst
  obtain ⟨w', kids'⟩ := m'
  obtain rfl : kids' = op.kids m := hkids
  cases op with
  | master op =>
    have hst : reloadSystem.step m op ⟨w', op.kids m⟩ := ⟨hallow, hexec, rfl⟩
    exact (h.step hst).1
  | deleteChildren s dead now =>
    obtain ⟨-, hwait, hall⟩ := hallow
    obtain ⟨t, u, ht, hu, hr⟩ := masterDeleteChildren_ok hexec hall
    have hacct := h.account.of_same (masterThrottle_sameBooks ht)
    have haccu := ((masterReapChild_books hacct hwait).ok _ hu).1
    exact h.acts ((masterThrottle_acts ht).all.trans
      ((masterReapChild_acts hu).trans (masterUnthrottle_acts hr).all))
      (haccu.of_same (masterUnthrottle_sameBooks hr))
  | request id context delay now =>
    obtain ⟨r, -, he⟩ := bind_ok_iff.1 hexec
    obtain rfl := Option.some.inj (Except.ok.inj he)
    exact h.timers r.2
  | cancel id context now =>
    obtain rfl := Option.some.inj (Except.ok.inj hexec)
    exact h.timers _

/-- An unrelated timer is no release. -/
theorem other_ne (id : ℕ) (context s : ServPtr) :
    (TimerCallback.masterUnthrottleWrapper, s) ≠ (TimerCallback.other id, context) :=
  fun he => by cases (Prod.mk.inj he).1

theorem World.Releases.releaseStep {m m' : Family} {op : ReleaseOp} (hw : m.world.Releases)
    (h : m.Managed) (hnow : ∀ now ∈ op.readings, now ≠ 0) (hst : releaseSystem.step m op m') :
    m'.world.Releases := by
  obtain ⟨hallow, hexec, -⟩ := hst
  have hhead : ∀ s ∈ m.world.masterHead, s < m.world.nextServ := fun s hs => (h.head s hs).1
  cases op with
  | master op =>
    cases op with
    | call op =>
      have hw' := ok_of_map_some hexec
      by_cases hstart : ∃ ent fds, op = .start ent fds
      · obtain ⟨ent, fds, rfl⟩ := hstart
        exact hw.start (masterConfigNew_ok hw' hallow.1.read.2.2)
      · exact hw.moves (masterExec_moves h.account hhead hallow.1 hallow.2 hnow hw'
          fun ent fds he => hstart ⟨ent, fds, he⟩)
    | mark =>
      have heq : masterMark m.world = m'.world := Option.some.inj (Except.ok.inj hexec)
      refine heq ▸ hw.of_eq rfl le_rfl fun s => ?_
      obtain ⟨mark, hs⟩ := masterMark_serv m.world s
      rw [hs]
    | entry ent fds =>
      rcases masterConfigEnt_cases hallow (ok_of_map_some hexec) with
        ⟨-, -, hst⟩ | ⟨s, -, -, -, hw'⟩
      · exact hw.start hst
      · have hup := masterConfigUpdate_ok hw'
        refine hw.of_eq (congrArg World.timers hup.eq :) hup.nextServ.ge fun t => ?_
        rcases eq_or_ne t s with rfl | ht
        · rw [hup.serv_self]
          rfl
        · rw [hup.serv_of_ne ht]
    | remove s dead now =>
      obtain ⟨hs, -, hwait, hall⟩ := hallow
      have hne : now ≠ 0 := hnow now (by simp [ReleaseOp.readings])
      obtain ⟨v, t, u, r, hv, ht, hu, hr, ⟨heq, -, -, -⟩⟩ := masterRemove_ok hexec hall
      have heqv := (masterStatusCleanup_ok hv).1
      have hrelv : v.Releases := by
        refine hw.of_eq (congrArg World.timers heqv :) (congrArg World.nextServ heqv :).ge
          fun x => ?_
        rw [heqv]
        rcases eq_or_ne x s with rfl | hx <;> simp [*]
      have haccv : v.Account m.kids :=
        masterStatusCleanup_account hv (h.account.of_eq rfl rfl rfl rfl fun _ => ⟨rfl, rfl⟩)
      have hsv : s < v.nextServ := (congrArg World.nextServ heqv :) ▸ (hhead s hs)
      have hmoves : World.Moves (· ≠ 0) False v r :=
        reap_throttled_moves ht hu hr haccv hwait hsv hne fun d hd =>
          hnow d.now (List.mem_cons_of_mem _ (List.mem_map_of_mem hd))
      refine (hrelv.moves hmoves).of_eq (congrArg World.timers heq :)
        (congrArg World.nextServ heq :).ge fun x => ?_
      rw [heq]
      rcases eq_or_ne x s with rfl | hx <;> simp [*]
  | deleteChildren s dead now =>
    obtain ⟨hs, hwait, hall⟩ := hallow
    have hne : now ≠ 0 := hnow now (by simp [ReleaseOp.readings])
    obtain ⟨t, u, ht, hu, hr⟩ := masterDeleteChildren_ok hexec hall
    have hmoves : World.Moves (· ≠ 0) False m.world m'.world :=
      reap_throttled_moves ht hu hr h.account hwait (hhead s hs) hne fun d hd =>
        hnow d.now (List.mem_cons_of_mem _ (List.mem_map_of_mem hd))
    exact hw.moves hmoves
  | request id context delay now =>
    obtain ⟨r, hr, he⟩ := bind_ok_iff.1 hexec
    obtain ⟨hpresent, -, hother⟩ := eventRequestTimer_countFor hr
    simp only [hw.lookedUp.countFor] at hother
    have hne : now ≠ 0 := hnow now (by simp [ReleaseOp.readings])
    rw [← Option.some.inj (Except.ok.inj he)]
    exact ⟨fun hzero => (hne (hpresent ▸ hzero)).elim,
      fun s => (hother _ _ (other_ne id context s)).trans (hw.count s), hw.fresh⟩
  | cancel id context now =>
    have hne : now ≠ 0 := hnow now (by simp [ReleaseOp.readings])
    obtain ⟨hpresent, -, hother⟩ :=
      eventCancelTimer_countFor m.world.timers (TimerCallback.other id) context now
    simp only [hw.lookedUp.countFor] at hother
    rw [← Option.some.inj (Except.ok.inj hexec)]
    exact ⟨fun hzero => (TimerQueue.looked_present_ne hne _ (hpresent.symm.trans hzero)).elim,
      fun s => (hother _ _ (other_ne id context s)).trans (hw.count s), hw.fresh⟩

/-- A call other than a start, or a request or a cancel of another timer, if it is allowed and
does not panic. -/
def releaseCall (m : Family) : ReleaseOp → Option Family
  | .master (.call op) => familyCall m op
  | .request id context delay now =>
    (releaseExec m.world (.request id context delay now)).toOption.join.map (⟨·, m.kids⟩)
  | .cancel id context now =>
    (releaseExec m.world (.cancel id context now)).toOption.join.map (⟨·, m.kids⟩)
  | _ => none

theorem step_of_releaseCall {m m' : Family} {op : ReleaseOp} (h : releaseCall m op = some m') :
    releaseSystem.step m op m' := by
  unfold releaseCall at h
  split at h
  · obtain ⟨hallow, hker, hexec, hkids⟩ := step_of_familyCall h
    exact ⟨⟨hallow, hker⟩, bind_ok_iff.2 ⟨_, hexec, rfl⟩, hkids⟩
  · obtain ⟨w, hw, rfl⟩ := Option.map_eq_some_iff.1 h
    exact ⟨trivial, toOption_eq_some (Option.join_eq_some_iff.1 hw), rfl⟩
  · obtain ⟨w, hw, rfl⟩ := Option.map_eq_some_iff.1 h
    exact ⟨trivial, toOption_eq_some (Option.join_eq_some_iff.1 hw), rfl⟩
  · cases h

/-- `smtp` is started without a limit, and calls follow. -/
def smtpReleases (ops : List ReleaseOp) : Option Family :=
  (masterExec masterInit (.start (smtpEnt 0) smtpFds)).toOption.bind fun v =>
    ops.foldlM releaseCall ⟨v, ∅⟩

theorem run_of_smtpReleases {ops : List ReleaseOp} {m : Family} (h : smtpReleases ops = some m) :
    ∃ tr, releaseSystem.Run tr m ∧ tr.map (fun x => x.2.1) =
      .master (.call (.start (smtpEnt 0) smtpFds)) :: ops := by
  obtain ⟨v, hv, h⟩ := Option.bind_eq_some_iff.1 h
  obtain ⟨tr, hp, hmap⟩ := LTS.Path.of_foldlM (S := releaseSystem)
    (fun _ _ _ => step_of_releaseCall) h
  have hst : releaseSystem.step ⟨masterInit, ∅⟩ (.master (.call (.start (smtpEnt 0) smtpFds)))
      ⟨v, ∅⟩ := step_of_quiet smtpFds_unused rfl rfl (toOption_eq_some hv)
  exact ⟨_, ⟨_, rfl, hp.cons hst⟩, by simp [hmap]⟩

/-- In a run where the clock never reads `0`, a service is throttled if and only if its release is
pending, and then it is pending once. -/
theorem release_pending {m : Family} {tr : List (Family × ReleaseOp × Family)}
    (h : releaseSystem.Run tr m) (hclock : ∀ x ∈ tr, ∀ now ∈ x.2.1.readings, now ≠ 0)
    (s : ServPtr) :
    ((m.world.serv s).flags.throttle = true ↔ ∃ timer ∈ m.world.timers.timers,
      timer.callback = .masterUnthrottleWrapper ∧ timer.context = s) ∧
    ((m.world.serv s).flags.throttle = true → (m.world.timers.timers.countP fun timer =>
      timer.callback = .masterUnthrottleWrapper ∧ timer.context = s) = 1) := by
  obtain ⟨m₀, rfl, hp⟩ := h
  have hinv := (hp.invariant_of (P := fun m => m.Managed ∧ m.world.Releases)
    ⟨managed_init, releases_init⟩ (fun m op m' hm hnow hst =>
      ⟨hm.1.releaseStep hst, hm.2.releaseStep hm.1 hnow hst⟩) hclock).1
  have hcount : (m.world.timers.timers.countP fun timer =>
      timer.callback = .masterUnthrottleWrapper ∧ timer.context = s) =
        if (m.world.serv s).flags.throttle then 1 else 0 := hinv.2.count s
  have hpos : (0 < m.world.timers.timers.countP fun timer =>
      timer.callback = .masterUnthrottleWrapper ∧ timer.context = s) ↔
        ∃ timer ∈ m.world.timers.timers,
          timer.callback = .masterUnthrottleWrapper ∧ timer.context = s := by
    simp only [List.countP_pos_iff, decide_eq_true_eq]
  refine ⟨?_, fun hthr => by rw [hcount, if_pos hthr]⟩
  rw [← hpos, hcount]
  split <;> simp [*]

/-- A `fork` for `smtp` fails while another timer is pending for the same context. -/
theorem release_pending_smtp : ∃ m tr, releaseSystem.Run tr m ∧
    tr.map (fun x => x.2.1) = [.master (.call (.start (smtpEnt 0) smtpFds)),
      .request 7 0 5 100, .master (.call (.availEvent 0 none 100))] ∧
    (m.world.serv 0).flags.throttle = true ∧ (m.world.timers.timers.countP fun timer =>
      timer.callback = .masterUnthrottleWrapper ∧ timer.context = 0) = 1 := by
  have hrun : (smtpReleases [.request 7 0 5 100, .master (.call (.availEvent 0 none 100))]).any
      (fun m => (m.world.serv 0).flags.throttle) = true := by decide +kernel
  obtain ⟨m, hm, hthr⟩ := (Option.any_eq_true _ _).1 hrun
  obtain ⟨tr, htr, hops⟩ := run_of_smtpReleases hm
  have hclock : ∀ x ∈ tr, ∀ now ∈ x.2.1.readings, now ≠ 0 := fun x hx => by
    have hmem : x.2.1 ∈ tr.map fun x => x.2.1 := List.mem_map_of_mem hx
    rw [hops] at hmem
    simp only [List.mem_cons, List.not_mem_nil, or_false] at hmem
    rcases hmem with he | he | he <;> rw [he] <;>
      simp [ReleaseOp.readings, MasterOp.readings]
  exact ⟨m, tr, htr, hops, hthr, (release_pending htr hclock 0).2 hthr⟩

/-- A `fork` for `smtp` fails while the clock reads `0`. The next request of another timer drops
the release. -/
theorem release_lost_smtp : ∃ m tr, releaseSystem.Run tr m ∧
    tr.map (fun x => x.2.1) = [.master (.call (.start (smtpEnt 0) smtpFds)),
      .master (.call (.availEvent 0 none 0)), .request 7 0 5 1] ∧
    (m.world.serv 0).flags.throttle = true ∧ ¬∃ timer ∈ m.world.timers.timers,
      timer.callback = .masterUnthrottleWrapper ∧ timer.context = 0 := by
  have hrun : (smtpReleases [.master (.call (.availEvent 0 none 0)), .request 7 0 5 1]).any
      (fun m => (m.world.serv 0).flags.throttle ∧ ∀ timer ∈ m.world.timers.timers,
        ¬(timer.callback = .masterUnthrottleWrapper ∧ timer.context = 0)) = true := by
    decide +kernel
  obtain ⟨m, hm, hobs⟩ := (Option.any_eq_true _ _).1 hrun
  obtain ⟨hthr, hnone⟩ := of_decide_eq_true hobs
  obtain ⟨tr, htr, hops⟩ := run_of_smtpReleases hm
  exact ⟨m, tr, htr, hops, hthr, fun ⟨timer, hmem, hfor⟩ => hnone timer hmem hfor⟩

end Nowra
