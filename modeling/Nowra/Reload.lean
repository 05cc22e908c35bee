import Nowra.Account

/-!
# Process limits under a configuration reload

`master_config` writes the new `max_proc` into an entry that exists and restarts the service. It
does not call `master_avail_listen`, so `MASTER_FLAG_LISTEN` stays as it was decided under the old
limit. The flag is as the new limit wants it if the service is throttled, if a child is available,
or if both limits say the same about the number of children. In a run with reloads the flag is
right all along if and only if every entry is such an entry (`limits_held_iff`).

Where it is not, a raised limit leaves a service with spare capacity that nobody monitors, and a
lowered one lets a connection into `master_spawn`, which panics (`limits_lost_smtp`).
-/

namespace Nowra

open World

/-! ## An entry that exists -/

/-- Stop reading the status pipe. -/
theorem masterStatusCleanup_ok {w w' : World} {s : ServPtr}
    (h : masterStatusCleanup w s = .ok w') :
    w' = { w with
      masterEl := w'.masterEl
      serv := Function.update w.serv s { w.serv s with statusFd := (-1, -1) } } ∧
    w.masterEl.SlotSet w'.masterEl (w.serv s).statusFd.1
      { w.masterEl.regEvents (w.serv s).statusFd.1 with
        mask := (w.masterEl.regEvents (w.serv s).statusFd.1).mask.without eventRead } := by
  unfold masterStatusCleanup at h
  split at h
  · cases h
  obtain ⟨r, hr, h⟩ := bind_ok_iff.1 h
  obtain rfl := Except.ok.inj h
  exact ⟨rfl, slotSet_of_eventDisableRw hr⟩

/-- The old pipe of a service is closed. -/
def World.closed (w : World) (s : ServPtr) : World :=
  w.updServ s fun serv => { serv with statusFd := (-1, -1) }

/-- The kernel returns a new pipe for a service whose old pipe is closed. -/
structure World.UnusedPipe (w : World) (s : ServPtr) (status : ℤ × ℤ) : Prop where
  read : 0 < status.1 ∧ ¬(w.closed s).Open status.1
  write : 0 < status.2 ∧ ¬(w.closed s).Open status.2 ∧ status.2 ≠ status.1

/-- A service with the values of its new entry, and with a new pipe. -/
def MasterServ.reloaded (serv : MasterServ) (ent : MasterEnt) (status : ℤ × ℤ) : MasterServ :=
  { serv with
    flags := { serv.flags with mark := false, condwake := ent.condwake }
    wakeupTime := ent.wakeupTime
    maxProc := ent.maxProc
    throttleDelay := varThrottleTime
    path := ent.path
    args := ent.args
    statusFd := status }

/-- `w'` is `w` after the new entry of a service that exists. -/
structure World.Updated (w w' : World) (s : ServPtr) (ent : MasterEnt) (status : ℤ × ℤ) :
    Prop where
  eq : w' = { w with
    masterEl := w'.masterEl
    serv := Function.update w.serv s ((w.serv s).reloaded ent status) }
  size : w'.masterEl.size = w.masterEl.size
  reg : ∀ fd, fd ≠ (w.serv s).statusFd.1 → fd ≠ status.1 →
    w'.masterEl.regEvents fd = w.masterEl.regEvents fd
  client : ∀ fd, (w'.masterEl.regEvents fd).clientData = (w.masterEl.regEvents fd).clientData ∨
    (w'.masterEl.regEvents fd).clientData = some s

theorem masterConfigUpdate_ok {w w' : World} {s : ServPtr} {ent : MasterEnt} {status : ℤ × ℤ}
    (h : masterConfigUpdate w s ent status = .ok w') : w.Updated w' s ent status := by
  simp only [masterConfigUpdate, masterRestartService] at h
  obtain ⟨v, hv, h⟩ := bind_ok_iff.1 h
  obtain ⟨heq, hset⟩ := masterStatusCleanup_ok hv
  obtain ⟨-, -, -, heq', hset'⟩ := masterStatusInit_ok h
  simp only [updServ_self] at heq hset
  refine ⟨?_, hset'.size.trans hset.size, fun fd hold hnew => ?_, fun fd => ?_⟩
  · rw [heq', heq]
    simp [updServ, MasterServ.reloaded, getMasterEnt]
  · rw [hset'.of_ne hnew, hset.of_ne hold]
    rfl
  · -- the old slot keeps its context, and the new one has this service for it
    have hkept : (v.masterEl.regEvents fd).clientData = (w.masterEl.regEvents fd).clientData := by
      rw [hset.slot]
      split
      · rcases eq_or_ne fd (w.serv s).statusFd.1 with rfl | hne
        · rw [Function.update_self]
          rfl
        · rw [Function.update_of_ne hne]
          rfl
      · rfl
    rw [hset'.slot, ← hkept]
    split
    · rcases eq_or_ne fd status.1 with rfl | hne
      · rw [Function.update_self]
        exact Or.inr rfl
      · rw [Function.update_of_ne hne]
        exact Or.inl rfl
    · exact Or.inl rfl

namespace World

variable {w w' : World} {s : ServPtr} {ent : MasterEnt} {status : ℤ × ℤ}

theorem Updated.serv (h : w.Updated w' s ent status) :
    w'.serv = Function.update w.serv s ((w.serv s).reloaded ent status) :=
  (congrArg World.serv h.eq :)

theorem Updated.serv_self (h : w.Updated w' s ent status) :
    w'.serv s = (w.serv s).reloaded ent status := by
  rw [h.serv, Function.update_self]

theorem Updated.serv_of_ne (h : w.Updated w' s ent status) {t : ServPtr} (ht : t ≠ s) :
    w'.serv t = w.serv t := by
  rw [h.serv, Function.update_of_ne ht]

theorem Updated.head (h : w.Updated w' s ent status) : w'.masterHead = w.masterHead :=
  (congrArg World.masterHead h.eq :)

theorem Updated.nextServ (h : w.Updated w' s ent status) : w'.nextServ = w.nextServ :=
  (congrArg World.nextServ h.eq :)

theorem Updated.listenFd (h : w.Updated w' s ent status) (t : ServPtr) :
    (w'.serv t).listenFd = (w.serv t).listenFd := by
  rcases eq_or_ne t s with rfl | ht
  · rw [h.serv_self]
    rfl
  · rw [h.serv_of_ne ht]

theorem UnusedPipe.listenFd_ne (h : w.UnusedPipe s status) (t : ServPtr) :
    (w.serv t).listenFd ≠ status.1 := by
  intro he
  refine h.read.2 ⟨t, Or.inl ?_⟩
  rcases eq_or_ne t s with rfl | ht
  · simpa [closed] using he
  · rwa [closed, updServ_of_ne ht]

/-- The slots of the listen descriptors stay. -/
theorem Updated.reg_listen (h : w.Updated w' s ent status) (hf : w.FdsOk)
    (hun : w.UnusedPipe s status) {t : ServPtr} (ht : 0 ≤ (w.serv t).listenFd) :
    w'.masterEl.regEvents (w.serv t).listenFd = w.masterEl.regEvents (w.serv t).listenFd :=
  h.reg _ (hf.status t s ht).symm (hun.listenFd_ne t)

/-- The monitor of the service has the new limit, and that is all. -/
theorem Updated.view_self (h : w.Updated w' s ent status) (hf : w.FdsOk)
    (hun : w.UnusedPipe s status) (hs : 0 ≤ (w.serv s).listenFd) :
    w'.view s = { w.view s with max := ent.maxProc } := by
  have hreg := h.reg_listen hf hun hs
  simp only [view, interest, h.serv_self, MasterServ.reloaded, h.size, hreg]

theorem Updated.view_of_ne (h : w.Updated w' s ent status) (hf : w.FdsOk)
    (hun : w.UnusedPipe s status) {t : ServPtr} (ht : t ≠ s) (hpos : 0 ≤ (w.serv t).listenFd) :
    w'.view t = w.view t := by
  have hreg := h.reg_listen hf hun hpos
  simp only [view, interest, h.serv_of_ne ht, h.size, hreg]

theorem Updated.fdsOk (h : w.Updated w' s ent status) (hf : w.FdsOk)
    (hun : w.UnusedPipe s status) : w'.FdsOk where
  listen t t' := by simpa only [h.listenFd] using hf.listen t t'
  status t t' ht := by
    rw [h.listenFd] at ht ⊢
    rcases eq_or_ne t' s with rfl | hne
    · rw [h.serv_self]
      exact (hun.listenFd_ne t).symm
    · rw [h.serv_of_ne hne]
      exact hf.status t t' ht

theorem Updated.account {kids : Finset MasterPid} (h : w.Updated w' s ent status)
    (hacc : w.Account kids) : w'.Account kids := by
  refine hacc.of_eq (congrArg World.masterChildTable h.eq :) (congrArg World.proc h.eq :)
    (congrArg World.nextProc h.eq :) h.nextServ fun t => ?_
  rcases eq_or_ne t s with rfl | ht
  · rw [h.serv_self]
    exact ⟨rfl, rfl⟩
  · rw [h.serv_of_ne ht]
    exact ⟨rfl, rfl⟩

end World

/-! ## A service that is removed -/

/-- The loop ends after some of the calls, when no child is left, and not before. It has reaped what
these returned. -/
theorem masterReapWhile_take {s : ServPtr} {dead : List (List Waited)} : ∀ {w w' : World},
    masterReapWhile s dead w = .ok (some w') → ∃ n ≤ dead.length,
      masterReapWhile s (dead.take n) w = .ok (some w') ∧
      masterReapChild w (dead.take n).flatten = .ok w' ∧ (w'.serv s).totalProc ≤ 0 ∧
      ∀ k < n, masterReapWhile s (dead.take k) w = .ok none := by
  induction dead with
  | nil =>
    intro w w' h
    refine ⟨0, le_rfl, h, ?_⟩
    unfold masterReapWhile at h
    split at h
    · cases h
    · rename_i hend
      obtain rfl := Option.some.inj (Except.ok.inj h)
      exact ⟨rfl, not_lt.1 hend, fun k hk => (Nat.not_lt_zero k hk).elim⟩
  | cons d dead ih =>
    intro w w' h
    by_cases hmore : (w.serv s).totalProc > 0
    · have hturn : ∀ rest, masterReapWhile s (d :: rest) w =
          masterReapChild w d >>= fun v => masterReapWhile s rest v := by
        intro rest
        rw [masterReapWhile, if_pos hmore]
      rw [hturn] at h
      obtain ⟨v, hv, h⟩ := bind_ok_iff.1 h
      obtain ⟨n, hn, hwhile, hreap, hend, hleast⟩ := ih h
      refine ⟨n + 1, Nat.succ_le_succ hn, ?_, ?_, hend, fun k hk => ?_⟩
      · rw [List.take_succ_cons, hturn, hv]
        exact hwhile
      · rw [List.take_succ_cons, List.flatten_cons, masterReapChild, List.foldlM_append]
        exact bind_ok_iff.2 ⟨v, hv, hreap⟩
      · cases k with
        | zero =>
          rw [List.take_zero, masterReapWhile, if_pos hmore]
          rfl
        | succ k =>
          rw [List.take_succ_cons, hturn, hv]
          exact hleast k (Nat.lt_of_succ_lt_succ hk)
    · have hdone : ∀ dead, masterReapWhile s dead w = .ok (some w) := by
        intro dead
        unfold masterReapWhile
        rw [if_neg hmore]
        rfl
      obtain rfl := Option.some.inj (Except.ok.inj ((hdone _).symm.trans h))
      exact ⟨0, Nat.zero_le _, hdone _, rfl, not_lt.1 hmore,
        fun k hk => (Nat.not_lt_zero k hk).elim⟩

/-- If no call of `waitpid` was to spare, the loop has reaped what all of them returned. -/
theorem masterReapWhile_ok {s : ServPtr} {dead : List (List Waited)} {w w' : World}
    (h : masterReapWhile s dead w = .ok (some w'))
    (hall : ∀ n < dead.length, masterReapWhile s (dead.take n) w = .ok none) :
    masterReapChild w dead.flatten = .ok w' := by
  obtain ⟨n, hn, hwhile, hreap, -⟩ := masterReapWhile_take h
  rcases hn.lt_or_eq with hlt | rfl
  · cases hwhile.symm.trans (hall n hlt)
  · rwa [List.take_length] at hreap

/-- `w'` is `w` after reads on the listen descriptor of a service were disabled and the descriptor
was closed. -/
structure World.Silenced (w w' : World) (s : ServPtr) : Prop where
  eq : w' = { w with
    masterEl := w'.masterEl
    serv := Function.update w.serv s { w.serv s with
      flags := { (w.serv s).flags with listen := false }
      listenFd := -1 } }
  size : w'.masterEl.size = w.masterEl.size
  reg : ∀ fd, fd ≠ (w.serv s).listenFd → w'.masterEl.regEvents fd = w.masterEl.regEvents fd
  slot : w'.masterEl.regEvents (w.serv s).listenFd =
    if (w.serv s).flags.listen ∧ (w.serv s).listenFd < w.masterEl.size then
      { w.masterEl.regEvents (w.serv s).listenFd with
        mask := (w.masterEl.regEvents (w.serv s).listenFd).mask.without eventRead }
    else w.masterEl.regEvents (w.serv s).listenFd

/-- The children are reaped under the throttle, and the listen descriptor loses its interest. -/
theorem masterAvailCleanup_ok {w w' : World} {s : ServPtr} {dead : List (List Waited)} {now : ℤ}
    (h : masterAvailCleanup w s dead now = .ok (some w')) :
    ∃ t u r, masterThrottle w s now = .ok t ∧ masterReapWhile s dead t = .ok (some u) ∧
      masterUnthrottle u s now = .ok r ∧ r.Silenced (masterListenCleanup w' s) s := by
  simp only [masterAvailCleanup, masterDeleteChildren] at h
  obtain ⟨o, hdel, h⟩ := bind_ok_iff.1 h
  obtain ⟨t, ht, hdel⟩ := bind_ok_iff.1 hdel
  obtain ⟨o', hwhile, hdel⟩ := bind_ok_iff.1 hdel
  cases o' with
  | none =>
    obtain rfl := Except.ok.inj hdel
    cases h
  | some u =>
    obtain ⟨r, hr, hdel⟩ := bind_ok_iff.1 hdel
    obtain rfl := Except.ok.inj hdel
    refine ⟨t, u, r, ht, hwhile, hr, ?_⟩
    simp only at h
    split at h
    · rename_i hflag
      obtain ⟨e, he, h⟩ := bind_ok_iff.1 h
      obtain rfl := Option.some.inj (Except.ok.inj h)
      have hset := slotSet_of_eventDisableRw he
      refine ⟨by simp [masterListenCleanup, updServ], hset.size, fun fd hfd => hset.of_ne hfd, ?_⟩
      have hslot := congrFun hset.slot (r.serv s).listenFd
      by_cases hin : (r.serv s).listenFd < r.masterEl.size
      · rw [if_pos ⟨hflag, hin⟩]
        exact hset.self hin
      · rw [if_neg fun hc => hin hc.2]
        rwa [if_neg hin] at hslot
    · rename_i hflag
      obtain rfl := Option.some.inj (Except.ok.inj h)
      have hserv : { r.serv s with flags := { (r.serv s).flags with listen := false } } =
          r.serv s := by
        rw [← (Bool.not_eq_true _).mp hflag]
      refine ⟨?_, rfl, fun _ _ => rfl, by rw [if_neg fun hc => hflag hc.1]; rfl⟩
      have hself : { r.serv s with
          flags := { (r.serv s).flags with listen := false }
          listenFd := -1 } = ({ r.serv s with listenFd := -1 } : MasterServ) :=
        congrArg (fun serv : MasterServ => { serv with listenFd := -1 }) hserv
      rw [hself]
      rfl

/-- Only the loop keeps the clean-up from its end. -/
theorem masterAvailCleanup_none {w t : World} {s : ServPtr} {dead : List (List Waited)} {now : ℤ}
    (ht : masterThrottle w s now = .ok t) (h : masterAvailCleanup w s dead now = .ok none) :
    masterReapWhile s dead t = .ok none := by
  simp only [masterAvailCleanup, masterDeleteChildren] at h
  obtain ⟨o, hdel, h⟩ := bind_ok_iff.1 h
  obtain ⟨t', ht', hdel⟩ := bind_ok_iff.1 hdel
  obtain rfl := Except.ok.inj (ht.symm.trans ht')
  obtain ⟨o', hwhile, hdel⟩ := bind_ok_iff.1 hdel
  cases o' with
  | none => exact hwhile
  | some u =>
    obtain ⟨r, -, hdel⟩ := bind_ok_iff.1 hdel
    obtain rfl := Except.ok.inj hdel
    simp only at h
    split at h
    · obtain ⟨e, -, h⟩ := bind_ok_iff.1 h
      cases h
    · cases h

/-- A stop closes the status pipe, reaps under the throttle, and disables and closes the listen
descriptor. -/
theorem masterStopService_ok {w w' : World} {s : ServPtr} {dead : List (List Waited)} {now : ℤ}
    (h : masterStopService w s dead now = .ok (some w')) :
    ∃ v t u r, masterStatusCleanup w s = .ok v ∧ masterThrottle v s now = .ok t ∧
      masterReapWhile s dead t = .ok (some u) ∧ masterUnthrottle u s now = .ok r ∧
      r.Silenced w' s := by
  unfold masterStopService at h
  obtain ⟨v, hv, h⟩ := bind_ok_iff.1 h
  obtain ⟨o, hclean, h⟩ := bind_ok_iff.1 h
  cases o with
  | none => cases h
  | some x =>
    obtain rfl := Option.some.inj (Except.ok.inj h)
    obtain ⟨t, u, r, ht, hwhile, hr, hsil⟩ := masterAvailCleanup_ok hclean
    exact ⟨v, t, u, r, hv, ht, hwhile, hr, hsil⟩

/-- A removal takes the service off the list and stops it. -/
theorem masterRemove_ok {w w' : World} {s : ServPtr} {dead : List (List Waited)} {now : ℤ}
    (h : masterRemove w s dead now = .ok (some w'))
    (hall : ∀ n < dead.length, masterRemove w s (dead.take n) now = .ok none) :
    ∃ v t u r, masterStatusCleanup { w with masterHead := w.masterHead.filter (· ≠ s) } s = .ok v ∧
      masterThrottle v s now = .ok t ∧ masterReapChild t dead.flatten = .ok u ∧
      masterUnthrottle u s now = .ok r ∧ r.Silenced w' s := by
  obtain ⟨v, t, u, r, hv, ht, hwhile, hr, hsil⟩ := masterStopService_ok h
  refine ⟨v, t, u, r, hv, ht, masterReapWhile_ok hwhile fun n hn => ?_, hr, hsil⟩
  have hnone := hall n hn
  unfold masterRemove masterStopService at hnone
  obtain ⟨v', hv', hnone⟩ := bind_ok_iff.1 hnone
  obtain rfl := Except.ok.inj (hv.symm.trans hv')
  obtain ⟨o, hclean', hnone⟩ := bind_ok_iff.1 hnone
  cases o with
  | none => exact masterAvailCleanup_none ht hclean'
  | some y => cases hnone

/-- A removal depends on what the loop reaps. -/
theorem masterRemove_congr {w v t : World} {s : ServPtr} {dead dead' : List (List Waited)} {now : ℤ}
    (hv : masterStatusCleanup { w with masterHead := w.masterHead.filter (· ≠ s) } s = .ok v)
    (ht : masterThrottle v s now = .ok t)
    (h : masterReapWhile s dead t = masterReapWhile s dead' t) :
    masterRemove w s dead now = masterRemove w s dead' now := by
  have hdelete : masterDeleteChildren v s dead now = masterDeleteChildren v s dead' now := by
    unfold masterDeleteChildren
    rw [ht]
    change (masterReapWhile s dead t >>= _) = (masterReapWhile s dead' t >>= _)
    rw [h]
  have hclean : masterAvailCleanup v s dead now = masterAvailCleanup v s dead' now := by
    rw [masterAvailCleanup, masterAvailCleanup, hdelete]
  unfold masterRemove masterStopService
  rw [hv]
  change (masterAvailCleanup v s dead now >>= _) = (masterAvailCleanup v s dead' now >>= _)
  rw [hclean]

/-- It does not end as long as the loop does not. -/
theorem masterRemove_none {w v t : World} {s : ServPtr} {dead : List (List Waited)} {now : ℤ}
    (hv : masterStatusCleanup { w with masterHead := w.masterHead.filter (· ≠ s) } s = .ok v)
    (ht : masterThrottle v s now = .ok t) (h : masterReapWhile s dead t = .ok none) :
    masterRemove w s dead now = .ok none := by
  have hdelete : masterDeleteChildren v s dead now = .ok none := by
    unfold masterDeleteChildren
    exact bind_ok_iff.2 ⟨t, ht, bind_ok_iff.2 ⟨none, h, rfl⟩⟩
  have hclean : masterAvailCleanup v s dead now = .ok none := bind_ok_iff.2 ⟨none, hdelete, rfl⟩
  exact bind_ok_iff.2 ⟨v, hv, bind_ok_iff.2 ⟨none, hclean, rfl⟩⟩

/-- A removal that ends has a part of the calls that was enough, and no less. -/
theorem masterRemove_least {w w' : World} {s : ServPtr} {dead : List (List Waited)} {now : ℤ}
    (h : masterRemove w s dead now = .ok (some w')) :
    ∃ n, masterRemove w s (dead.take n) now = .ok (some w') ∧
      ∀ k < (dead.take n).length, masterRemove w s ((dead.take n).take k) now = .ok none := by
  obtain ⟨v, t, u, r, hv, ht, hwhile, -⟩ := masterStopService_ok h
  obtain ⟨n, -, hn, -, -, hleast⟩ := masterReapWhile_take hwhile
  refine ⟨n, (masterRemove_congr hv ht (hn.trans hwhile.symm)).trans h, fun k hk => ?_⟩
  have hlt : k < n := hk.trans_le (List.length_take_le n dead)
  rw [List.take_take, min_eq_left hlt.le]
  exact masterRemove_none hv ht (hleast k hlt)

/-- The books do not read the status pipe. -/
theorem masterStatusCleanup_account {w v : World} {s : ServPtr} {kids : Finset MasterPid}
    (h : masterStatusCleanup w s = .ok v) (hacc : w.Account kids) : v.Account kids := by
  rw [(masterStatusCleanup_ok h).1]
  refine hacc.of_eq rfl rfl rfl rfl fun x => ?_
  rcases eq_or_ne x s with rfl | hx <;> simp [*]

theorem World.Silenced.account {w w' : World} {s : ServPtr} {kids : Finset MasterPid}
    (h : w.Silenced w' s) (hacc : w.Account kids) : w'.Account kids := by
  rw [h.eq]
  refine hacc.of_eq rfl rfl rfl rfl fun x => ?_
  rcases eq_or_ne x s with rfl | hx <;> simp [*]

/-- Closing a status pipe leaves the monitors alone. -/
theorem masterStatusCleanup_view {w w' : World} {s : ServPtr} (h : masterStatusCleanup w s = .ok w')
    (hf : w.FdsOk) : w'.FdsOk ∧ (∀ t, (w'.serv t).listenFd = (w.serv t).listenFd) ∧
      ∀ t, 0 ≤ (w.serv t).listenFd → w'.view t = w.view t := by
  obtain ⟨heq, hset⟩ := masterStatusCleanup_ok h
  have hserv : w'.serv = Function.update w.serv s { w.serv s with statusFd := (-1, -1) } :=
    (congrArg World.serv heq :)
  have hlisten : ∀ t, (w'.serv t).listenFd = (w.serv t).listenFd := by
    intro t
    rcases eq_or_ne t s with rfl | ht
    · rw [hserv, Function.update_self]
    · rw [hserv, Function.update_of_ne ht]
  refine ⟨⟨fun t t' => by simpa only [hlisten] using hf.listen t t', fun t t' ht => ?_⟩, hlisten,
    fun t ht => ?_⟩
  · rw [hlisten] at ht ⊢
    rcases eq_or_ne t' s with rfl | hne
    · rw [hserv, Function.update_self]
      intro he
      have hneg : -1 = (w.serv t).listenFd := he
      omega
    · rw [hserv, Function.update_of_ne hne]
      exact hf.status t t' ht
  · have hreg := hset.of_ne (hf.status t s ht).symm
    rcases eq_or_ne t s with rfl | hne
    · simp [view, interest, hserv, hreg, hset.size]
    · simp [view, interest, hserv, hne, hreg, hset.size]

/-- `w'` is `w` without a service. -/
structure World.Removed (w w' : World) (s : ServPtr) : Prop where
  head : w'.masterHead = w.masterHead.filter (· ≠ s)
  nextServ : w'.nextServ = w.nextServ
  fds : w'.FdsOk
  listenFd : ∀ t, t ≠ s → (w'.serv t).listenFd = (w.serv t).listenFd
  steps : ∀ t, t ≠ s → 0 ≤ (w.serv t).listenFd → (w.view t).Steps (w'.view t)

theorem masterRemove_removed {w w' : World} {s : ServPtr} {dead : List (List Waited)} {now : ℤ}
    (h : masterRemove w s dead now = .ok (some w'))
    (hall : ∀ n < dead.length, masterRemove w s (dead.take n) now = .ok none) (hf : w.FdsOk) :
    w.Removed w' s := by
  obtain ⟨v, t, u, r, hv, ht, hu, hr, ⟨heq, hsize, hreg, -⟩⟩ := masterRemove_ok h hall
  obtain ⟨hfv, hlisten, hview⟩ := masterStatusCleanup_view hv ⟨hf.listen, hf.status⟩
  have hacts : v.ActsAll r := (masterThrottle_acts ht).all.trans
    ((masterReapChild_acts hu).trans (masterUnthrottle_acts hr).all)
  have hfr : r.FdsOk := hacts.fdsOk hfv
  have heqv := (masterStatusCleanup_ok hv).1
  have hserv : ∀ x, x ≠ s → w'.serv x = r.serv x := fun x hx =>
    (congrFun (congrArg World.serv heq) x :).trans (Function.update_of_ne hx _ _)
  have hself : (w'.serv s).listenFd = -1 := by
    rw [heq]
    simp
  have hstatus : ∀ x, (w'.serv x).statusFd = (r.serv x).statusFd := by
    intro x
    rcases eq_or_ne x s with rfl | hx
    · rw [heq]
      simp
    · rw [hserv x hx]
  refine ⟨?_, ?_, ⟨fun x y hx he => ?_, fun x y hx => ?_⟩, fun x hx => ?_, fun x hx hpos => ?_⟩
  · rw [(congrArg World.masterHead heq :), hacts.head, (congrArg World.masterHead heqv :)]
  · rw [(congrArg World.nextServ heq :), hacts.nextServ, (congrArg World.nextServ heqv :)]
  · have hxs : x ≠ s := by
      rintro rfl
      omega
    have hys : y ≠ s := by
      rintro rfl
      omega
    rw [hserv x hxs] at hx he
    rw [hserv y hys] at he
    exact hfr.listen x y hx he
  · have hxs : x ≠ s := by
      rintro rfl
      omega
    rw [hserv x hxs] at hx ⊢
    rw [hstatus]
    exact hfr.status x y hx
  · rw [hserv x hx, hacts.listenFd, hlisten]
  · have hposv : 0 ≤ (v.serv x).listenFd := by rwa [hlisten]
    have hne : (r.serv x).listenFd ≠ (r.serv s).listenFd := fun he =>
      hx (hfr.listen x s (by rwa [hacts.listenFd]) he.symm).symm
    have hview' : w'.view x = r.view x := by
      simp only [view, interest, hserv x hx, hreg _ hne, hsize]
    have hsteps := hacts.steps hfv x hposv
    rw [hview x hpos] at hsteps
    rw [hview']
    exact hsteps

/-- The children that were reaped leave the books. -/
theorem masterRemove_account {w w' : World} {s : ServPtr} {dead : List (List Waited)} {now : ℤ}
    {kids : Finset MasterPid} (h : masterRemove w s dead now = .ok (some w'))
    (hall : ∀ n < dead.length, masterRemove w s (dead.take n) now = .ok none)
    (hacc : w.Account kids) (hwait : WaitOk kids dead.flatten) :
    w'.Account (kidsLeft kids dead.flatten) := by
  obtain ⟨v, t, u, r, hv, ht, hu, hr, hsil⟩ := masterRemove_ok h hall
  have haccv : v.Account kids :=
    masterStatusCleanup_account hv (hacc.of_eq rfl rfl rfl rfl fun _ => ⟨rfl, rfl⟩)
  have hacct := haccv.of_same (masterThrottle_sameBooks ht)
  have haccu := ((masterReapChild_books hacct hwait).ok _ hu).1
  exact hsil.account (haccu.of_same (masterUnthrottle_sameBooks hr))

/-! ## Runs with reloads -/

/-- A call other than a start takes a monitor through steps, or a throttled one loses its
interest. -/
theorem masterExec_view {w w' : World} {op : MasterOp} (h : masterExec w op = .ok w')
    (hstart : ∀ ent fds, op ≠ .start ent fds) (hf : w.FdsOk) {t : ServPtr}
    (ht : 0 ≤ (w.serv t).listenFd) :
    (w.view t).Steps (w'.view t) ∨
      ((w.view t).throttled = true ∧ w'.view t = { w.view t with interest := false }) := by
  by_cases hthr : op.OnThrottled w
  · cases op with
    | availEvent s fork now =>
      obtain ⟨-, rfl⟩ | ⟨-, -, heq, hset⟩ | ⟨-, -, hspawn⟩ := masterAvailEvent_ok h
      · exact Or.inl .refl
      · have hserv : w'.serv = w.serv := (congrArg World.serv heq :)
        by_cases hfd : (w.serv t).listenFd = (w.serv s).listenFd
        · obtain rfl := hf.listen s t (hfd ▸ ht) hfd
          refine Or.inr ⟨hthr, ?_⟩
          by_cases hin : (w.serv t).listenFd < w.masterEl.size
          · simp [view, interest, hserv, hset.size, hset.self hin, eventRead]
          · simp [view, interest, hserv, hset.size, hin]
        · have hview : w'.view t = w.view t := by
            simp only [view, interest, hserv, hset.size, hset.of_ne hfd]
          exact Or.inl (hview ▸ .refl)
      · exact Or.inl ((masterSpawn_acts hspawn).all.steps hf t ht)
    | start | spawn | throttle | unthrottle | statusEvent | reapChild | timer => exact hthr.elim
  · exact Or.inl ((masterExec_acts h hstart hthr).steps hf t ht)

/-- The service on the list that has the name and the type of a line. -/
def World.entryOf (w : World) (ent : MasterEnt) : Option ServPtr :=
  w.masterHead.find? fun s =>
    (w.serv s).name = (getMasterEnt ent).name ∧ (w.serv s).type = (getMasterEnt ent).type

theorem masterConfigEnt_eq (w : World) (ent : MasterEnt) (fds : ServFds) :
    masterConfigEnt w (ent, fds) = match w.entryOf ent with
      | none => masterConfigNew w ent fds
      | some s => masterConfigUpdate w s ent fds.status := rfl

/-- A call that reaches the master, or a part of a reload. A reload marks the services, reads
the entries, and removes the services that are still marked. -/
inductive ReloadOp
  | call (op : MasterOp)
  | mark
  | entry (ent : MasterEnt) (fds : ServFds)
  /-- `dead` is what each call of `master_reap_child` finds. -/
  | remove (s : ServPtr) (dead : List (List Waited)) (now : ℤ)

/-- What it does, nothing if a loop does not end. -/
def reloadExec (w : World) : ReloadOp → Except Panic (Option World)
  | .call op => some <$> masterExec w op
  | .mark => pure (some (masterMark w))
  | .entry ent fds => some <$> masterConfigEnt w (ent, fds)
  | .remove s dead now => masterRemove w s dead now

/-- The kernel returns descriptors that are not open while an entry is read. -/
def World.EntryFds (w : World) (ent : MasterEnt) (fds : ServFds) : Prop :=
  match w.entryOf ent with
  | none => w.Unused fds
  | some s => w.UnusedPipe s fds.status

/-- An entry starts a service or updates one that is on the list. -/
theorem masterConfigEnt_cases {w w' : World} {ent : MasterEnt} {fds : ServFds}
    (hfds : w.EntryFds ent fds) (h : masterConfigEnt w (ent, fds) = .ok w') :
    (w.entryOf ent = none ∧ w.Unused fds ∧ w.Started w' ent fds) ∨
    ∃ s, w.entryOf ent = some s ∧ s ∈ w.masterHead ∧ w.UnusedPipe s fds.status ∧
      masterConfigUpdate w s ent fds.status = .ok w' := by
  rw [masterConfigEnt_eq] at h
  unfold World.EntryFds at hfds
  cases hentry : w.entryOf ent with
  | none =>
    rw [hentry] at h hfds
    exact Or.inl ⟨rfl, hfds, masterConfigNew_ok h hfds.read.2.2⟩
  | some s =>
    rw [hentry] at h hfds
    exact Or.inr ⟨s, rfl, List.mem_of_find?_eq_some hentry, hfds, h⟩

/-- When it can come. `waitpid` is not called again once the children of a service that is
removed are gone. -/
def ReloadOp.Allowed (m : Family) : ReloadOp → Prop
  | .call op => op.Allowed m.world ∧ op.KernelOk m
  | .mark => True
  | .entry ent fds => m.world.EntryFds ent fds
  | .remove s dead now => s ∈ m.world.masterHead ∧ (m.world.serv s).flags.mark = true ∧
    WaitOk m.kids dead.flatten ∧
    ∀ n < dead.length, masterRemove m.world s (dead.take n) now = .ok none

/-- The pids that `waitpid` has not returned after it. -/
def ReloadOp.kids (m : Family) : ReloadOp → Finset MasterPid
  | .call op => kidsLeft (kidsAfter m.kids (op.forked m.world)) op.reaped
  | .mark | .entry _ _ => m.kids
  | .remove _ dead _ => kidsLeft m.kids dead.flatten

/-- The master with its children, from its start, with reloads. -/
def reloadSystem : LTS Family ReloadOp where
  init m := m = ⟨masterInit, ∅⟩
  step m op m' := op.Allowed m ∧ reloadExec m.world op = .ok (some m'.world) ∧ m'.kids = op.kids m

/-- The books are in order, and the monitors of the services on the list are honest. -/
structure Family.Managed (m : Family) : Prop where
  account : m.world.Account m.kids
  fds : m.world.FdsOk
  head : ∀ s ∈ m.world.masterHead, s < m.world.nextServ ∧ 0 < (m.world.serv s).listenFd
  honest : ∀ s ∈ m.world.masterHead, (m.world.view s).Honest

/-- The flag of every service is as the decision says. -/
def World.Guarded (w : World) : Prop :=
  ∀ s ∈ w.masterHead, (w.view s).Armed

/-- A service that is not throttled is monitored if and only if it has no available child and its
limit allows another one. -/
def World.LimitsHeld (w : World) : Prop :=
  ∀ s ∈ w.masterHead, (w.serv s).flags.throttle = false →
    ((w.serv s).flags.listen = true ↔
      (w.serv s).availProc = 0 ∧ masterLimitOk (w.serv s).maxProc (w.serv s).totalProc = true)

theorem Family.Managed.guarded_iff {m : Family} (h : m.Managed) :
    m.world.Guarded ↔ m.world.LimitsHeld := by
  refine forall₂_congr fun s _ => imp_congr_right fun _ => iff_congr Iff.rfl ?_
  have hcount := h.account.availProc s
  have havail : (m.world.serv s).availProc ≤ 0 ↔ (m.world.serv s).availProc = 0 := by omega
  exact and_congr_left fun _ => havail

/-- The entry of a service that is throttled, or has an available child, or whose old and new
limits say the same about its children. -/
def ReloadOp.KeepsLimit (w : World) : ReloadOp → Prop
  | .entry ent _ => ∀ s, w.entryOf ent = some s →
    (w.serv s).flags.throttle = true ∨ 0 < (w.serv s).availProc ∨
      masterLimitOk ent.maxProc (w.serv s).totalProc =
        masterLimitOk (w.serv s).maxProc (w.serv s).totalProc
  | _ => True

theorem managed_init : Family.Managed ⟨masterInit, ∅⟩ where
  account := family_books_init.account
  fds := fdsOk_init
  head := by simp [masterInit]
  honest := by simp [masterInit]

/-- A new service is armed and honest, and the others keep their monitors. -/
theorem Family.Managed.start {m m' : Family} {ent : MasterEnt} {fds : ServFds} (h : m.Managed)
    (hun : m.world.Unused fds) (hst : m.world.Started m'.world ent fds) (hkids : m'.kids = m.kids) :
    m'.Managed ∧ (m.world.Guarded → m'.world.Guarded) := by
  have hold : ∀ s ∈ m.world.masterHead, s ≠ m.world.nextServ := fun s hs => (h.head s hs).1.ne
  have hview := hst.view_self
  have hlimit := limitOk_zero ent.maxProc_nonneg
  refine ⟨⟨hkids ▸ h.account.started hst, hst.fdsOk hun h.fds, fun s hs => ?_, fun s hs => ?_⟩,
    fun hg s hs => ?_⟩
  all_goals
    rw [hst.head] at hs
    rcases List.mem_cons.1 hs with rfl | hs
  · rw [hst.nextServ, hst.serv_self]
    exact ⟨Nat.lt_succ_self _, lt_of_le_of_ne hst.listenFd hun.listen.1.symm⟩
  · rw [hst.nextServ, hst.serv_of_ne (hold s hs)]
    exact ⟨(h.head s hs).1.trans (Nat.lt_succ_self _), (h.head s hs).2⟩
  · rw [hview]
    exact fun hi => ⟨rfl, hi⟩
  · rw [hst.view_of_ne hun (hold s hs)]
    exact h.honest s hs
  · rw [hview]
    exact fun _ => ⟨fun _ => ⟨le_rfl, hlimit⟩, fun _ => rfl⟩
  · rw [hst.view_of_ne hun (hold s hs)]
    exact hg s hs

/-- A call keeps the master managed and guarded. -/
theorem Family.Managed.call {m m' : Family} {op : MasterOp} (h : m.Managed)
    (hallow : op.Allowed m.world) (hker : op.KernelOk m)
    (hexec : masterExec m.world op = .ok m'.world) (hkids : m'.kids = (ReloadOp.call op).kids m) :
    m'.Managed ∧ (m.world.Guarded → m'.world.Guarded) := by
  by_cases hstart : ∃ ent fds, op = .start ent fds
  · obtain ⟨ent, fds, rfl⟩ := hstart
    exact h.start hallow (masterConfigNew_ok hexec hallow.read.2.2) hkids
  · have hno : ∀ ent fds, op ≠ .start ent fds := fun ent fds he => hstart ⟨ent, fds, he⟩
    have hkeeps := masterExec_keeps hexec hno
    have hacc := ((masterExec_books h.account (fun s hs => (h.head s hs).1) hallow hker).ok _
      hexec).1
    refine ⟨⟨hkids ▸ hacc, hkeeps.fdsOk h.fds, fun s hs => ?_, fun s hs => ?_⟩, fun hg s hs => ?_⟩
    all_goals rw [hkeeps.head] at hs
    · rw [hkeeps.nextServ, hkeeps.listenFd]
      exact h.head s hs
    · rcases masterExec_view hexec hno h.fds (h.head s hs).2.le with hsteps | ⟨-, hview⟩
      · exact hsteps.honest (h.honest s hs)
      · rw [hview]
        exact nofun
    · rcases masterExec_view hexec hno h.fds (h.head s hs).2.le with hsteps | ⟨-, hview⟩
      · exact hsteps.armed (hg s hs)
      · rw [hview]
        exact hg s hs

/-- The marks are no part of a monitor. -/
theorem masterMark_serv (w : World) (s : ServPtr) :
    ∃ mark, (masterMark w).serv s = { w.serv s with
      flags := { (w.serv s).flags with mark := mark } } := by
  unfold masterMark
  by_cases hs : s ∈ w.masterHead
  · exact ⟨true, by simp [hs]⟩
  · exact ⟨(w.serv s).flags.mark, by simp [hs]⟩

theorem Family.Managed.mark {m m' : Family} (h : m.Managed) (hw : m'.world = masterMark m.world)
    (hkids : m'.kids = m.kids) : m'.Managed ∧ (m.world.Guarded → m'.world.Guarded) := by
  have hserv := masterMark_serv m.world
  rw [← hw] at hserv
  have hhead : m'.world.masterHead = m.world.masterHead := by rw [hw]; rfl
  have hel : m'.world.masterEl = m.world.masterEl := by rw [hw]; rfl
  have hlisten : ∀ s, (m'.world.serv s).listenFd = (m.world.serv s).listenFd := fun s => by
    obtain ⟨_, hs⟩ := hserv s
    rw [hs]
  have hstatus : ∀ s, (m'.world.serv s).statusFd = (m.world.serv s).statusFd := fun s => by
    obtain ⟨_, hs⟩ := hserv s
    rw [hs]
  have hview : ∀ s, m'.world.view s = m.world.view s := fun s => by
    obtain ⟨_, hs⟩ := hserv s
    simp only [view, interest, hs, hel]
  refine ⟨⟨?_, ⟨?_, ?_⟩, fun s hs => ?_, fun s hs => ?_⟩, fun hg s hs => ?_⟩
  · rw [hkids]
    refine h.account.of_eq (by rw [hw]; rfl) (by rw [hw]; rfl) (by rw [hw]; rfl) (by rw [hw]; rfl)
      fun s => ?_
    obtain ⟨_, hs⟩ := hserv s
    rw [hs]
    exact ⟨rfl, rfl⟩
  · simpa only [hlisten] using h.fds.listen
  · simpa only [hlisten, hstatus] using h.fds.status
  · rw [hhead] at hs
    rw [hlisten, hw]
    exact h.head s hs
  · rw [hview]
    exact h.honest s (hhead ▸ hs)
  · rw [hview]
    exact hg s (hhead ▸ hs)

theorem Family.Managed.remove {m m' : Family} {s : ServPtr} {dead : List (List Waited)} {now : ℤ}
    (h : m.Managed) (hallow : (ReloadOp.remove s dead now).Allowed m)
    (hexec : masterRemove m.world s dead now = .ok (some m'.world))
    (hkids : m'.kids = kidsLeft m.kids dead.flatten) :
    m'.Managed ∧ (m.world.Guarded → m'.world.Guarded) := by
  obtain ⟨-, -, hwait, hall⟩ := hallow
  have hrem := masterRemove_removed hexec hall h.fds
  have hmem : ∀ t ∈ m'.world.masterHead, t ∈ m.world.masterHead ∧ t ≠ s := by
    intro t ht
    rw [hrem.head] at ht
    simpa using ht
  refine ⟨⟨hkids ▸ masterRemove_account hexec hall h.account hwait, hrem.fds, fun t ht => ?_,
    fun t ht => ?_⟩, fun hg t ht => ?_⟩
  all_goals obtain ⟨ht, hne⟩ := hmem t ht
  · rw [hrem.nextServ, hrem.listenFd t hne]
    exact h.head t ht
  · exact (hrem.steps t hne (h.head t ht).2.le).honest (h.honest t ht)
  · exact (hrem.steps t hne (h.head t ht).2.le).armed (hg t ht)

/-- An armed monitor with a new limit is armed if and only if it is throttled, or has an
available child, or both limits say the same. -/
theorem Monitor.Armed.max_iff {m : Monitor} (h : m.Armed) (max : ℤ) :
    ({ m with max := max } : Monitor).Armed ↔
      m.throttled = true ∨ 0 < m.avail ∨
        masterLimitOk max m.total = masterLimitOk m.max m.total := by
  unfold Monitor.Armed Monitor.Spare at *
  cases hthr : m.throttled with
  | true => simp
  | false =>
    have hold := h hthr
    by_cases havail : m.avail ≤ 0
    · simp only [havail, true_and] at hold
      simp only [true_implies, havail, true_and, hold, Bool.false_eq_true, false_or,
        not_lt.2 havail]
      exact ⟨fun he => Bool.eq_iff_iff.2 he.symm, fun he => by rw [he]⟩
    · simp only [havail, false_and, iff_false] at hold
      simp [havail, hold, not_le.1 havail]

/-- The new entry of a service keeps the master managed, and guarded if and only if it keeps the
limit. -/
theorem Family.Managed.update {m m' : Family} {s : ServPtr} {ent : MasterEnt} {status : ℤ × ℤ}
    (h : m.Managed) (hs : s ∈ m.world.masterHead) (hun : m.world.UnusedPipe s status)
    (hup : m.world.Updated m'.world s ent status) (hkids : m'.kids = m.kids) :
    m'.Managed ∧ (m.world.Guarded → (m'.world.Guarded ↔
      ((m.world.serv s).flags.throttle = true ∨ 0 < (m.world.serv s).availProc ∨
        masterLimitOk ent.maxProc (m.world.serv s).totalProc =
          masterLimitOk (m.world.serv s).maxProc (m.world.serv s).totalProc))) := by
  have hpos : ∀ t ∈ m.world.masterHead, 0 ≤ (m.world.serv t).listenFd := fun t ht =>
    (h.head t ht).2.le
  have hself := hup.view_self h.fds hun (hpos s hs)
  refine ⟨⟨hkids ▸ hup.account h.account, hup.fdsOk h.fds hun, fun t ht => ?_, fun t ht => ?_⟩,
    fun hg => ⟨fun hg' => ?_, fun hc t ht => ?_⟩⟩
  · rw [hup.head] at ht
    rw [hup.nextServ, hup.listenFd]
    exact h.head t ht
  · rw [hup.head] at ht
    rcases eq_or_ne t s with rfl | hne
    · rw [hself]
      exact h.honest t ht
    · rw [hup.view_of_ne h.fds hun hne (hpos t ht)]
      exact h.honest t ht
  · have harmed := hg' s (hup.head ▸ hs)
    rw [hself] at harmed
    exact ((hg s hs).max_iff ent.maxProc).1 harmed
  · rw [hup.head] at ht
    rcases eq_or_ne t s with rfl | hne
    · rw [hself]
      exact ((hg t ht).max_iff ent.maxProc).2 hc
    · rw [hup.view_of_ne h.fds hun hne (hpos t ht)]
      exact hg t ht

/-- A step keeps the master managed, and guarded if and only if it keeps the limit. -/
theorem Family.Managed.step {m m' : Family} {op : ReloadOp} (h : m.Managed)
    (hst : reloadSystem.step m op m') :
    m'.Managed ∧ (m.world.Guarded → (m'.world.Guarded ↔ op.KeepsLimit m.world)) := by
  obtain ⟨hallow, hexec, hkids⟩ := hst
  cases op with
  | call op =>
    obtain ⟨hm, hg⟩ := h.call hallow.1 hallow.2 (ok_of_map_some hexec) hkids
    exact ⟨hm, fun h' => iff_of_true (hg h') trivial⟩
  | mark =>
    obtain ⟨hm, hg⟩ := h.mark (Option.some.inj (Except.ok.inj hexec)).symm hkids
    exact ⟨hm, fun h' => iff_of_true (hg h') trivial⟩
  | remove s dead now =>
    obtain ⟨hm, hg⟩ := h.remove hallow hexec hkids
    exact ⟨hm, fun h' => iff_of_true (hg h') trivial⟩
  | entry ent fds =>
    rcases masterConfigEnt_cases hallow (ok_of_map_some hexec) with
      ⟨hentry, hun, hstart⟩ | ⟨s, hentry, hmem, hun, hw⟩
    · obtain ⟨hm, hg⟩ := h.start hun hstart hkids
      refine ⟨hm, fun h' => iff_of_true (hg h') fun s hs => ?_⟩
      rw [hentry] at hs
      cases hs
    · obtain ⟨hm, hg⟩ := h.update hmem hun (masterConfigUpdate_ok hw) hkids
      refine ⟨hm, fun h' => (hg h').trans ⟨fun hc t ht => ?_, fun hc => hc s hentry⟩⟩
      obtain rfl := Option.some.inj (hentry.symm.trans ht)
      exact hc

theorem Family.managed_of_reach {m : Family} (h : reloadSystem.Reach m) : m.Managed :=
  h.invariant (by rintro _ rfl; exact managed_init) fun _ _ _ h hst => (h.step hst).1

/-- `master_spawn` panics about the limit only at the limit. -/
theorem masterSpawn_atProcessLimit {w : World} {s : ServPtr} {fork : Option MasterPid} {now : ℤ}
    {count : ℤ} (h : masterSpawn w s fork now = .error (.atProcessLimit count)) :
    masterLimitOk (w.serv s).maxProc (w.serv s).totalProc = false := by
  simp only [masterSpawn] at h
  split at h
  · exact (Bool.not_eq_true _).mp ‹_›
  split at h
  · cases h
  split at h
  · cases h
  cases fork with
  | none =>
    obtain ⟨delay, he⟩ := masterThrottle_error h
    cases he
  | some pid =>
    rcases bind_error_iff.1 h with h | ⟨v, -, h⟩
    · rcases masterAvailMore_error h with he | ⟨fd, he⟩ <;> cases he
    · cases h

/-- No connection event makes `master_spawn` panic about the limit. -/
def World.SpawnsWithin (w : World) : Prop :=
  ∀ s ∈ w.masterHead, w.interest (w.serv s).listenFd = true → ∀ event fork now count,
    masterAvailEvent w event s fork now ≠ .error (.atProcessLimit count)

theorem Family.Managed.spawnsWithin {m : Family} (h : m.Managed) (hg : m.world.Guarded) :
    m.world.SpawnsWithin := by
  intro s hs hinterest event fork now count he
  unfold masterAvailEvent at he
  split at he
  · cases he
  split at he
  · rcases bind_error_iff.1 he with he | ⟨r, -, he⟩
    · rcases eventDisableRw_spec m.world.masterEl (m.world.serv s).listenFd eventRead with
        ⟨-, herr⟩ | ⟨r, el, -, hok, -⟩
      · cases herr.symm.trans he
      · cases hok.symm.trans he
    · cases he
  · rename_i hthr
    -- the interest comes with the flag, and the flag with the limit
    have hlisten := (h.honest s hs hinterest).1
    have hlimit := ((hg s hs (by simpa [view] using hthr)).1 hlisten).2
    have hat := masterSpawn_atProcessLimit he
    simp only [view] at hlimit
    rw [hat] at hlimit
    cases hlimit

/-- In a run with reloads the services are monitored as their limits say, all along, if and only
if every new entry keeps the limit of its service. In such a run no connection event makes
`master_spawn` panic about the limit. -/
theorem limits_held_iff {m : Family} {tr : List (Family × ReloadOp × Family)}
    (h : reloadSystem.Run tr m) :
    ((∀ x ∈ tr, x.1.world.LimitsHeld ∧ x.2.2.world.LimitsHeld) ↔
      ∀ x ∈ tr, x.2.1.KeepsLimit x.1.world) ∧
    ((∀ x ∈ tr, x.2.1.KeepsLimit x.1.world) → m.world.LimitsHeld ∧ m.world.SpawnsWithin) := by
  have hinit : ∀ m, reloadSystem.init m → m.Managed ∧ m.world.Guarded := by
    rintro _ rfl
    exact ⟨managed_init, by simp [World.Guarded, masterInit]⟩
  have hstep : ∀ m op m', m.Managed ∧ m.world.Guarded → op.KeepsLimit m.world →
      reloadSystem.step m op m' → m'.Managed ∧ m'.world.Guarded := fun m op m' hm hc hst =>
    ⟨(hm.1.step hst).1, ((hm.1.step hst).2 hm.2).2 hc⟩
  refine ⟨h.forall_iff (I := fun m => m.Managed ∧ m.world.Guarded) hinit
    (fun m hm => hm.1.guarded_iff.1 hm.2) hstep fun m op m' hm hc hst hp => ?_, fun hc => ?_⟩
  · obtain ⟨hm', hg⟩ := hm.1.step hst
    exact hc ((hg hm.2).1 (hm'.guarded_iff.2 hp))
  · obtain ⟨m₀, hm₀, hpath⟩ := h
    obtain ⟨hm, hg⟩ := (hpath.invariant_of (hinit m₀ hm₀) hstep hc).1
    exact ⟨hm.guarded_iff.1 hg, hm.spawnsWithin hg⟩

theorem familyCall_keeps {m m' : Family} {op : MasterOp} (h : familyCall m op = some m') :
    m.world.Keeps m'.world := by
  obtain ⟨-, -, hexec, -⟩ := step_of_familyCall h
  refine masterExec_keeps hexec ?_
  rintro ent fds rfl
  unfold familyCall at h
  split at h <;> cases h

/-- A call that neither forks nor reaps is a step. -/
theorem step_of_quiet {m : Family} {op : MasterOp} {w' : World} (hallow : op.Allowed m.world)
    (hforked : op.forked m.world = none) (hreaped : op.reaped = [])
    (hexec : masterExec m.world op = .ok w') : reloadSystem.step m (.call op) ⟨w', m.kids⟩ := by
  refine ⟨⟨hallow, MasterOp.kernelOk_of_quiet hforked hreaped⟩, bind_ok_iff.2 ⟨w', hexec, rfl⟩, ?_⟩
  rw [ReloadOp.kids, hforked, hreaped]
  rfl

/-- Calls are steps, and leave the descriptors alone. -/
theorem path_of_familyCalls {ops : List MasterOp} : ∀ {m m' : Family},
    ops.foldlM familyCall m = some m' →
      (∃ tr, reloadSystem.Path m tr m' ∧ tr.map (fun x => x.2.1) = ops.map .call) ∧
        m.world.Keeps m'.world := by
  induction ops with
  | nil =>
    intro m m' h
    obtain rfl := Option.some.inj h
    exact ⟨⟨[], .nil, rfl⟩, .refl _⟩
  | cons op ops ih =>
    intro m m' h
    rw [List.foldlM_cons] at h
    obtain ⟨u, hu, h⟩ := Option.bind_eq_some_iff.1 h
    obtain ⟨⟨tr, hp, hmap⟩, hkeeps⟩ := ih h
    obtain ⟨hallow, hker, hexec, hkids⟩ := step_of_familyCall hu
    have hst : reloadSystem.step m (.call op) u :=
      ⟨⟨hallow, hker⟩, bind_ok_iff.2 ⟨_, hexec, rfl⟩, hkids⟩
    exact ⟨⟨_, hp.cons hst, by simp [hmap]⟩, (familyCall_keeps hu).trans hkeeps⟩

/-- After the start of a first service its pipe can be replaced by the same descriptors. -/
theorem unusedPipe_smtp {ent : MasterEnt} {v w : World}
    (hv : masterExec masterInit (.start ent smtpFds) = .ok v) (hkeeps : v.Keeps w) :
    w.UnusedPipe 0 smtpFds.status := by
  have hst := masterConfigNew_ok hv smtpFds_unused.read.2.2
  have hopen : ∀ fd : ℤ, 0 ≤ fd → fd ≠ 6 → ¬(w.closed 0).Open fd := by
    rintro fd hpos hne ⟨t, ht⟩
    rcases eq_or_ne t 0 with rfl | hzero
    · have hlisten : (v.serv 0).listenFd = 6 := congrArg MasterServ.listenFd hst.serv_self
      simp only [closed, updServ_self, hkeeps.listenFd, hlisten] at ht
      omega
    · have hnone : v.serv t = masterServNone := hst.serv_of_ne hzero
      rw [closed, updServ_of_ne hzero, hkeeps.listenFd, hkeeps.statusFd, hnone] at ht
      simp only [masterServNone] at ht
      omega
  exact ⟨⟨by decide, hopen _ (by decide) (by decide)⟩, by decide,
    hopen _ (by decide) (by decide), by decide⟩

/-- Calls after the start of `smtp`. -/
theorem run_of_familyCalls {ent : MasterEnt} {ops : List MasterOp} {v : World} {m : Family}
    (hv : masterExec masterInit (.start ent smtpFds) = .ok v)
    (hm : ops.foldlM familyCall ⟨v, ∅⟩ = some m) :
    (∃ tr, reloadSystem.Run tr m ∧ tr.map (fun x => x.2.1) =
      .call (.start ent smtpFds) :: ops.map .call) ∧ v.Keeps m.world := by
  have hstart : reloadSystem.step ⟨masterInit, ∅⟩ (.call (.start ent smtpFds)) ⟨v, ∅⟩ :=
    step_of_quiet smtpFds_unused rfl rfl hv
  obtain ⟨⟨tr, hp, hmap⟩, hkeeps⟩ := path_of_familyCalls hm
  exact ⟨⟨_, ⟨_, rfl, hp.cons hstart⟩, by simp [hmap]⟩, hkeeps⟩

/-- Calls after the start of `smtp`, and a new entry for it that gets the same pipe again. -/
theorem run_of_reload {ent ent' : MasterEnt} {ops : List MasterOp} {v w : World} {m : Family}
    (hv : masterExec masterInit (.start ent smtpFds) = .ok v)
    (hm : ops.foldlM familyCall ⟨v, ∅⟩ = some m) (hentry : m.world.entryOf ent' = some 0)
    (hw : masterConfigEnt m.world (ent', smtpFds) = .ok w) :
    ∃ tr, reloadSystem.Run (tr ++ [(m, .entry ent' smtpFds, ⟨w, m.kids⟩)]) ⟨w, m.kids⟩ ∧
      tr.map (fun x => x.2.1) = .call (.start ent smtpFds) :: ops.map .call := by
  obtain ⟨⟨tr, ⟨m₀, hm₀, hp⟩, hmap⟩, hkeeps⟩ := run_of_familyCalls hv hm
  have hst : reloadSystem.step m (.entry ent' smtpFds) ⟨w, m.kids⟩ := by
    refine ⟨?_, bind_ok_iff.2 ⟨w, hw, rfl⟩, rfl⟩
    simp only [ReloadOp.Allowed, EntryFds, hentry]
    exact unusedPipe_smtp hv hkeeps
  exact ⟨tr, ⟨m₀, hm₀, hp.snoc hst⟩, hmap⟩

/-- `smtp` is started with a limit, takes calls, and gets a new limit. -/
def smtpReload (limit limit' : ℕ) (ops : List MasterOp) : Option World :=
  (masterExec masterInit (.start (smtpEnt limit) smtpFds)).toOption.bind fun v =>
    (ops.foldlM familyCall ⟨v, ∅⟩).bind fun m =>
      if m.world.entryOf (smtpEnt limit') = some 0 then
        (masterConfigEnt m.world (smtpEnt limit', smtpFds)).toOption
      else none

theorem run_of_smtpReload {limit limit' : ℕ} {ops : List MasterOp} {w : World}
    (h : smtpReload limit limit' ops = some w) :
    ∃ tr kids, reloadSystem.Run tr ⟨w, kids⟩ ∧ tr.map (fun x => x.2.1) =
      .call (.start (smtpEnt limit) smtpFds) :: ops.map .call ++
        [.entry (smtpEnt limit') smtpFds] := by
  obtain ⟨v, hv, h⟩ := Option.bind_eq_some_iff.1 h
  obtain ⟨m, hm, h⟩ := Option.bind_eq_some_iff.1 h
  split at h
  · rename_i hentry
    obtain ⟨tr, hrun, hmap⟩ := run_of_reload (toOption_eq_some hv) hm hentry (toOption_eq_some h)
    exact ⟨_, m.kids, hrun, by simp [hmap]⟩
  · cases h

/-- The limit is lowered while a child is available. The services stay monitored as their limits
say. -/
theorem limits_held_iff_smtp : ∃ m tr, reloadSystem.Run tr m ∧
    tr.map (fun x => x.2.1) = [.call (.start (smtpEnt 2) smtpFds),
      .call (.availEvent 0 (some 100) 1000), .entry (smtpEnt 1) smtpFds] ∧
    (∀ x ∈ tr, x.1.world.LimitsHeld ∧ x.2.2.world.LimitsHeld) ∧ m.world.SpawnsWithin := by
  have hrun : ((masterExec masterInit (.start (smtpEnt 2) smtpFds)).toOption.bind fun v =>
      [MasterOp.availEvent 0 (some 100) 1000].foldlM familyCall ⟨v, ∅⟩).any (fun m =>
        m.world.entryOf (smtpEnt 1) = some 0 ∧ 0 < (m.world.serv 0).availProc ∧
          (masterConfigEnt m.world (smtpEnt 1, smtpFds)).toOption.isSome = true) = true := by
    decide +kernel
  obtain ⟨m, hm, hobs⟩ := (Option.any_eq_true _ _).1 hrun
  obtain ⟨hentry, havail, hw⟩ := of_decide_eq_true hobs
  obtain ⟨v, hv, hm⟩ := Option.bind_eq_some_iff.1 hm
  obtain ⟨w, hw⟩ := Option.isSome_iff_exists.1 hw
  obtain ⟨tr, htr, hops⟩ := run_of_reload (toOption_eq_some hv) hm hentry (toOption_eq_some hw)
  have hkeeps : ∀ x ∈ tr ++ [(m, .entry (smtpEnt 1) smtpFds, ⟨w, m.kids⟩)],
      x.2.1.KeepsLimit x.1.world := fun x hx => by
    rcases List.mem_append.1 hx with hx | hx
    · have hmem : x.2.1 ∈ tr.map fun x => x.2.1 := List.mem_map_of_mem hx
      rw [hops] at hmem
      obtain heq | heq : x.2.1 = .call (.start (smtpEnt 2) smtpFds) ∨
          x.2.1 = .call (.availEvent 0 (some 100) 1000) := by simpa using hmem
      all_goals
        rw [heq]
        trivial
    · obtain rfl := List.mem_singleton.1 hx
      intro s hs
      obtain rfl := Option.some.inj (hentry.symm.trans hs)
      exact .inr (.inl havail)
  obtain ⟨hiff, hwithin⟩ := limits_held_iff htr
  exact ⟨_, _, htr, by simp [hops], hiff.2 hkeeps, (hwithin hkeeps).2⟩

/-- `smtp` has one busy child. With the limit raised from one to two nobody monitors the service.
With the limit lowered from two to one the next connection makes `master_spawn` panic. -/
theorem limits_lost_smtp :
    (∃ m tr, reloadSystem.Run tr m ∧
      tr.map (fun x => x.2.1) = [.call (.start (smtpEnt 1) smtpFds),
        .call (.availEvent 0 (some 100) 1000),
        .call (.statusEvent 0 (.stat ⟨100, masterStatTaken⟩)), .entry (smtpEnt 2) smtpFds] ∧
      0 ∈ m.world.masterHead ∧ (m.world.serv 0).flags.throttle = false ∧
      (m.world.serv 0).availProc = 0 ∧
      masterLimitOk (m.world.serv 0).maxProc (m.world.serv 0).totalProc = true ∧
      (m.world.serv 0).flags.listen = false ∧ ¬m.world.LimitsHeld) ∧
    ∃ m tr, reloadSystem.Run tr m ∧
      tr.map (fun x => x.2.1) = [.call (.start (smtpEnt 2) smtpFds),
        .call (.availEvent 0 (some 100) 1000),
        .call (.statusEvent 0 (.stat ⟨100, masterStatTaken⟩)), .entry (smtpEnt 1) smtpFds] ∧
      0 ∈ m.world.masterHead ∧ m.world.interest (m.world.serv 0).listenFd = true ∧
      ∀ fork now, masterAvailEvent m.world (m.world.serv 0).listenFd 0 fork now =
        .error (.atProcessLimit 1) := by
  constructor
  · have hrun : (smtpReload 1 2 [.availEvent 0 (some 100) 1000,
        .statusEvent 0 (.stat ⟨100, masterStatTaken⟩)]).map (fun w => (w.masterHead,
          (w.serv 0).flags.throttle, (w.serv 0).availProc,
          masterLimitOk (w.serv 0).maxProc (w.serv 0).totalProc,
          (w.serv 0).flags.listen)) = some ([0], false, 0, true, false) := by
      decide +kernel
    obtain ⟨w, hw, hobs⟩ := Option.map_eq_some_iff.1 hrun
    obtain ⟨tr, kids, htr, hops⟩ := run_of_smtpReload hw
    simp only [Prod.mk.injEq] at hobs
    obtain ⟨hhead, hthr, havail, hlimit, hlisten⟩ := hobs
    have hmem : 0 ∈ w.masterHead := by simp [hhead]
    refine ⟨_, tr, htr, hops, hmem, hthr, havail, hlimit, hlisten, fun hl => ?_⟩
    have hset := (hl 0 hmem hthr).2 ⟨havail, hlimit⟩
    simp [hlisten] at hset
  · have hrun : (smtpReload 2 1 [.availEvent 0 (some 100) 1000,
        .statusEvent 0 (.stat ⟨100, masterStatTaken⟩)]).map (fun w => (w.masterHead,
          w.interest (w.serv 0).listenFd, (w.serv 0).listenFd,
          (w.serv 0).flags.throttle, (w.serv 0).maxProc, (w.serv 0).totalProc)) =
        some ([0], true, 6, false, 1, 1) := by
      decide +kernel
    obtain ⟨w, hw, hobs⟩ := Option.map_eq_some_iff.1 hrun
    obtain ⟨tr, kids, htr, hops⟩ := run_of_smtpReload hw
    simp only [Prod.mk.injEq] at hobs
    obtain ⟨hhead, hinterest, hfd, hthr, hmax, htotal⟩ := hobs
    refine ⟨_, tr, htr, hops, by simp [hhead], hinterest, fun fork now => ?_⟩
    simp [masterAvailEvent, masterSpawn, hfd, hthr, hmax, htotal, masterLimitOk]
    rfl

/-! ## A whole reload -/

/-- The kernel returns descriptors that are not open for each line. -/
def ConfigFds : List (MasterEnt × ServFds) → World → Prop
  | [], _ => True
  | line :: lines, w => w.EntryFds line.1 line.2 ∧
    ∀ w', masterConfigEnt w line = .ok w' → ConfigFds lines w'

/-- `master_config` is a path of entries. -/
theorem masterConfig_path {lines : List (MasterEnt × ServFds)} (kids : Finset MasterPid) :
    ∀ {w w' : World}, masterConfig w lines = .ok w' → ConfigFds lines w →
      ∃ tr, reloadSystem.Path ⟨w, kids⟩ tr ⟨w', kids⟩ ∧
        tr.map (fun x => x.2.1) = lines.map fun line => .entry line.1 line.2 := by
  induction lines with
  | nil =>
    intro w w' h _
    obtain rfl := Except.ok.inj h
    exact ⟨[], .nil, rfl⟩
  | cons line lines ih =>
    intro w w' h hfds
    obtain ⟨v, hv, h⟩ := bind_ok_iff.1 h
    obtain ⟨tr, hp, hmap⟩ := ih h (hfds.2 v hv)
    have hst : reloadSystem.step ⟨w, kids⟩ (.entry line.1 line.2) ⟨v, kids⟩ :=
      ⟨hfds.1, bind_ok_iff.2 ⟨v, hv, rfl⟩, rfl⟩
    exact ⟨_, hp.cons hst, by simp [hmap]⟩

end Nowra
