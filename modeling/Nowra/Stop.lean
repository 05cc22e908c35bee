import Mathlib.Data.List.Flatten
import Nowra.Throttle

/-!
# Stopping a service

`master_stop_service` goes through the normal paths : it throttles the service, reaps whatever
children die, releases the service, which can enable its listen descriptor again, and disables the
descriptor at last. Nothing that names the service survives (`stop_leaves_nothing`), and the books
of the others are in order.

Two invariants carry this. A slot of the event table with an interest belongs to the service that
its context names (`World.Owned`), and every timer is the release of a throttled service
(`World.Timed`). Both hold for any readings of the clock.
-/

namespace Nowra

open World

/-! ## The slots of the event table -/

namespace World

/-- A slot with interest in reads, for a service that has the descriptor open. -/
structure Reads (w : World) (fd : ℤ) : Prop where
  mask : (w.masterEl.regEvents fd).mask = eventRead
  range : 0 ≤ fd ∧ fd < w.masterEl.size
  owner : ∃ s, (w.masterEl.regEvents fd).clientData = some s ∧
    ((w.serv s).listenFd = fd ∨ (w.serv s).statusFd.1 = fd)

/-- Each slot is without interest, or is for reads of the service in its context. -/
structure Owned (w : World) : Prop where
  fresh : ∀ s, 0 ≤ (w.serv s).listenFd ∨ 0 ≤ (w.serv s).statusFd.1 → s < w.nextServ
  slot : ∀ fd, (w.masterEl.regEvents fd).mask = eventNone ∨ w.Reads fd

theorem owned_init : masterInit.Owned where
  fresh s h := by simp [masterInit, masterServNone] at h
  slot _ := Or.inl rfl

variable {w w' : World} {s : ServPtr}

theorem Owned.mask (h : w.Owned) (fd : ℤ) : (w.masterEl.regEvents fd).mask = eventNone ∨
    (w.masterEl.regEvents fd).mask = eventRead :=
  (h.slot fd).imp_right Reads.mask

theorem Owned.mask_or (h : w.Owned) (fd : ℤ) :
    (w.masterEl.regEvents fd).mask.or eventRead = eventRead := by
  rcases h.mask fd with he | he <;> rw [he] <;> rfl

theorem Owned.mask_without (h : w.Owned) (fd : ℤ) :
    (w.masterEl.regEvents fd).mask.without eventRead = eventNone := by
  rcases h.mask fd with he | he <;> rw [he] <;> rfl

/-- The owner of a slot keeps its descriptor. -/
theorem Reads.of_eq {fd : ℤ} (h : w.Reads fd) (hsize : w'.masterEl.size = w.masterEl.size)
    (hslot : w'.masterEl.regEvents fd = w.masterEl.regEvents fd)
    (hfds : ∀ s, (w.masterEl.regEvents fd).clientData = some s →
      ((w.serv s).listenFd = fd ∨ (w.serv s).statusFd.1 = fd) →
        (w'.serv s).listenFd = fd ∨ (w'.serv s).statusFd.1 = fd) : w'.Reads fd := by
  obtain ⟨s, hctx, hfd⟩ := h.owner
  exact ⟨by rw [hslot]; exact h.mask, by rw [hsize]; exact h.range,
    s, by rw [hslot]; exact hctx, hfds s hctx hfd⟩

/-- One slot changes, and the services keep their descriptors. -/
theorem Owned.of_slot {fd : ℤ} (h : w.Owned) (hsize : w'.masterEl.size = w.masterEl.size)
    (hnext : w'.nextServ = w.nextServ)
    (hlisten : ∀ s, (w'.serv s).listenFd = (w.serv s).listenFd)
    (hstatus : ∀ s, (w'.serv s).statusFd.1 = (w.serv s).statusFd.1)
    (hreg : ∀ fd', fd' ≠ fd → w'.masterEl.regEvents fd' = w.masterEl.regEvents fd')
    (hslot : (w'.masterEl.regEvents fd).mask = eventNone ∨ w'.Reads fd) : w'.Owned := by
  refine ⟨fun s hs => ?_, fun fd' => ?_⟩
  · rw [hlisten, hstatus] at hs
    rw [hnext]
    exact h.fresh s hs
  · rcases eq_or_ne fd' fd with rfl | hne
    · exact hslot
    · rw [hreg fd' hne]
      exact (h.slot fd').imp_right fun hr => hr.of_eq hsize (hreg fd' hne) fun s _ hfd => by
        rwa [hlisten, hstatus]

theorem Owned.of_eq (h : w.Owned) (hel : w'.masterEl = w.masterEl)
    (hnext : w'.nextServ = w.nextServ)
    (hfds : ∀ s, (w'.serv s).listenFd = (w.serv s).listenFd ∧
      (w'.serv s).statusFd.1 = (w.serv s).statusFd.1) : w'.Owned := by
  have hslot : (w'.masterEl.regEvents 0).mask = eventNone ∨ w'.Reads 0 := by
    rw [hel]
    exact (h.slot 0).imp_right fun hr => hr.of_eq (by rw [hel]) (by rw [hel]) fun s _ hfd => by
      rwa [(hfds s).1, (hfds s).2]
  exact h.of_slot (by rw [hel]) hnext (fun s => (hfds s).1) (fun s => (hfds s).2)
    (fun _ _ => by rw [hel]) hslot

/-- Interest in the descriptor is disabled. -/
theorem Owned.disable {fd : ℤ} (h : w.Owned) (hnext : w'.nextServ = w.nextServ)
    (hlisten : ∀ s, (w'.serv s).listenFd = (w.serv s).listenFd)
    (hstatus : ∀ s, (w'.serv s).statusFd.1 = (w.serv s).statusFd.1)
    (hset : w.masterEl.SlotSet w'.masterEl fd { w.masterEl.regEvents fd with
      mask := (w.masterEl.regEvents fd).mask.without eventRead }) : w'.Owned := by
  refine h.of_slot hset.size hnext hlisten hstatus (fun _ hne => hset.of_ne hne) ?_
  have hslot := congrFun hset.slot fd
  by_cases hin : fd < w.masterEl.size
  · rw [hset.self hin]
    exact Or.inl (h.mask_without fd)
  · rw [if_neg hin] at hslot
    rw [hslot]
    exact (h.slot fd).imp_right fun hr => (hin hr.range.2).elim

theorem Owned.move {clock : ℤ → Prop} {spawns : Prop} (hmove : World.Move clock spawns w w')
    (h : w.Owned) : w'.Owned := by
  cases hmove with
  | books heq hserv =>
    refine h.of_eq (congrArg World.masterEl heq :) (congrArg World.nextServ heq :) fun t => ?_
    obtain ⟨avail, total, ht⟩ := hserv t
    rw [ht]
    exact ⟨rfl, rfl⟩
  | woken s =>
    refine h.of_eq rfl rfl fun t => ?_
    rcases eq_or_ne t s with rfl | ht
    · rw [updServ_self]
      exact ⟨rfl, rfl⟩
    · rw [updServ_of_ne ht]
      exact ⟨rfl, rfl⟩
  | @rearm _ s hre =>
    have honly := hre.only
    refine h.of_slot hre.size honly.nextServ honly.listenFd_eq
      (fun t => congrArg Prod.fst (honly.statusFd_eq t)) hre.reg ?_
    have hslot := hre.slot
    split at hslot
    · rw [hslot]
      exact (h.slot _).imp_right fun hr => hr.of_eq hre.size hslot fun t _ hfd => by
        rwa [honly.listenFd_eq, honly.statusFd_eq]
    rename_i hchange
    rw [not_or, not_le] at hchange
    split at hslot
    · -- the listen descriptor is enabled, for the service itself
      refine Or.inr ⟨?_, ⟨hre.fd.resolve_left hchange.1, ?_⟩, s, ?_, Or.inl (honly.listenFd)⟩
      · rw [hslot]
        exact h.mask_or _
      · rw [hre.size]
        exact hchange.2
      · rw [hslot]
        rfl
    · rw [hslot]
      exact Or.inl (h.mask_without _)
  | @throttle s =>
    refine h.of_eq rfl rfl fun t => ?_
    rcases eq_or_ne t s with rfl | ht <;> simp [updServ, *]
  | @release s =>
    refine h.of_eq rfl rfl fun t => ?_
    rcases eq_or_ne t s with rfl | ht <;> simp [released, updServ, *]
  | @expire timer =>
    refine h.of_eq rfl rfl fun t => ?_
    rcases eq_or_ne t timer.context with rfl | ht <;> simp [released, updServ, *]
  | drop => exact h.of_eq rfl rfl fun _ => ⟨rfl, rfl⟩
  | clocked => exact h.of_eq rfl rfl fun _ => ⟨rfl, rfl⟩
  | deafen heq hset =>
    have hserv : w'.serv = w.serv := (congrArg World.serv heq :)
    exact h.disable (congrArg World.nextServ heq :) (fun _ => by rw [hserv])
      (fun _ => by rw [hserv]) hset

/-- A new service owns the slots of its descriptors. -/
theorem Owned.start {ent : MasterEnt} {fds : ServFds} (h : w.Owned) (hun : w.Unused fds)
    (hst : w.Started w' ent fds) : w'.Owned := by
  -- a slot that has not changed belongs to a service that was there before
  have hold : ∀ fd, w'.masterEl.regEvents fd = w.masterEl.regEvents fd →
      (w'.masterEl.regEvents fd).mask = eventNone ∨ w'.Reads fd := by
    intro fd he
    rw [he]
    refine (h.slot fd).imp_right fun hr => hr.of_eq hst.size he fun s _ hfd => ?_
    have hpos := hr.range.1
    have hopen : 0 ≤ (w.serv s).listenFd ∨ 0 ≤ (w.serv s).statusFd.1 := by omega
    rwa [hst.serv_of_ne (h.fresh s hopen).ne]
  refine ⟨fun s hs => ?_, fun fd => ?_⟩
  · rw [hst.nextServ]
    rcases eq_or_ne s w.nextServ with rfl | hne
    · exact Nat.lt_succ_self _
    · rw [hst.serv_of_ne hne] at hs
      exact (h.fresh s hs).trans (Nat.lt_succ_self _)
  rcases eq_or_ne fd fds.listenFd with rfl | hl
  · have hslot := hst.listen
    split at hslot
    · rename_i hin
      refine Or.inr ⟨?_, ⟨hst.listenFd, by rwa [hst.size]⟩, w.nextServ, ?_, ?_⟩
      · rw [hslot]
        exact h.mask_or _
      · rw [hslot]
        rfl
      · rw [hst.serv_self]
        exact Or.inl rfl
    · exact hold _ hslot
  rcases eq_or_ne fd fds.status.1 with rfl | hs
  · have hslot := hst.status
    split at hslot
    · rename_i hin
      refine Or.inr ⟨?_, ⟨hun.read.1.le, by rwa [hst.size]⟩, w.nextServ, ?_, ?_⟩
      · rw [hslot]
        exact h.mask_or _
      · rw [hslot]
        rfl
      · rw [hst.serv_self]
        exact Or.inr rfl
    · exact hold _ hslot
  · exact hold fd (hst.reg fd hl hs)

/-- The pipe of a service is closed, and the service owns no slot of a pipe. -/
theorem Owned.statusCleanup (h : w.Owned) (hclean : masterStatusCleanup w s = .ok w') :
    w'.Owned := by
  obtain ⟨heq, hset⟩ := masterStatusCleanup_ok hclean
  have hserv : w'.serv = Function.update w.serv s { w.serv s with statusFd := (-1, -1) } :=
    (congrArg World.serv heq :)
  have hfds : ∀ t, (w'.serv t).listenFd = (w.serv t).listenFd ∧
      ((w'.serv t).statusFd.1 = (w.serv t).statusFd.1 ∨ t = s ∧ (w'.serv t).statusFd.1 = -1) := by
    intro t
    rcases eq_or_ne t s with rfl | ht
    · rw [hserv, Function.update_self]
      exact ⟨rfl, Or.inr ⟨rfl, rfl⟩⟩
    · rw [hserv, Function.update_of_ne ht]
      exact ⟨rfl, Or.inl rfl⟩
  refine ⟨fun t ht => ?_, fun fd => ?_⟩
  · rw [(congrArg World.nextServ heq :)]
    obtain ⟨hlisten, hstatus | ⟨-, hneg⟩⟩ := hfds t
    · rw [hlisten, hstatus] at ht
      exact h.fresh t ht
    · rw [hlisten, hneg] at ht
      exact h.fresh t (Or.inl (ht.resolve_right (by omega)))
  · have hslot := congrFun hset.slot fd
    by_cases hin : (w.serv s).statusFd.1 < w.masterEl.size ∧ fd = (w.serv s).statusFd.1
    · obtain ⟨hin, rfl⟩ := hin
      rw [hset.self hin]
      exact Or.inl (h.mask_without _)
    · have hkept : w'.masterEl.regEvents fd = w.masterEl.regEvents fd := by
        rw [hslot]
        split
        · rw [Function.update_of_ne fun he => hin ⟨‹_›, he⟩]
        · rfl
      rw [hkept]
      refine (h.slot fd).imp_right fun hr => hr.of_eq hset.size hkept fun t _ hfd => ?_
      obtain ⟨hlisten, hstatus | ⟨rfl, -⟩⟩ := hfds t
      · rwa [hlisten, hstatus]
      · rw [hlisten]
        refine Or.inl (hfd.resolve_right fun he => hin ⟨?_, he.symm⟩)
        rw [he]
        exact hr.range.2

/-- A new pipe is open for a service without one. -/
theorem Owned.statusInit {fds : ℤ × ℤ} (h : w.Owned) (hs : s < w.nextServ)
    (hinit : masterStatusInit w s fds = .ok w') : w'.Owned := by
  obtain ⟨hneg, -, hpos, heq, hset⟩ := masterStatusInit_ok hinit
  have hserv : w'.serv = Function.update w.serv s { w.serv s with statusFd := fds } :=
    (congrArg World.serv heq :)
  have hkept : ∀ t fd, 0 ≤ fd → (w.serv t).listenFd = fd ∨ (w.serv t).statusFd.1 = fd →
      (w'.serv t).listenFd = fd ∨ (w'.serv t).statusFd.1 = fd := by
    intro t fd hfd ht
    rcases eq_or_ne t s with rfl | hne
    · rw [hserv, Function.update_self]
      exact Or.inl (ht.resolve_right (by omega))
    · rwa [hserv, Function.update_of_ne hne]
  refine ⟨fun t ht => ?_, fun fd => ?_⟩
  · rw [(congrArg World.nextServ heq :)]
    rcases eq_or_ne t s with rfl | hne
    · exact hs
    · rw [hserv, Function.update_of_ne hne] at ht
      exact h.fresh t ht
  · have hslot := congrFun hset.slot fd
    by_cases hin : fds.1 < w.masterEl.size ∧ fd = fds.1
    · obtain ⟨hin, rfl⟩ := hin
      refine Or.inr ⟨?_, ⟨hpos, by rwa [hset.size]⟩, s, ?_, ?_⟩
      · rw [hset.self hin]
        exact h.mask_or _
      · rw [hset.self hin]
        rfl
      · rw [hserv, Function.update_self]
        exact Or.inr rfl
    · have hkeep : w'.masterEl.regEvents fd = w.masterEl.regEvents fd := by
        rw [hslot]
        split
        · rw [Function.update_of_ne fun he => hin ⟨‹_›, he⟩]
        · rfl
      rw [hkeep]
      exact (h.slot fd).imp_right fun hr => hr.of_eq hset.size hkeep fun t _ hfd =>
        hkept t fd hr.range.1 hfd

theorem Owned.update {ent : MasterEnt} {status : ℤ × ℤ} (h : w.Owned) (hs : s < w.nextServ)
    (hup : masterConfigUpdate w s ent status = .ok w') : w'.Owned := by
  simp only [masterConfigUpdate, masterRestartService] at hup
  obtain ⟨v, hv, hup⟩ := bind_ok_iff.1 hup
  have hset : (w.updServ s fun serv => { serv with
      flags := { serv.flags with mark := false, condwake := (getMasterEnt ent).flags.condwake }
      wakeupTime := (getMasterEnt ent).wakeupTime
      maxProc := (getMasterEnt ent).maxProc
      throttleDelay := (getMasterEnt ent).throttleDelay
      path := (getMasterEnt ent).path
      args := (getMasterEnt ent).args }).Owned := by
    refine h.of_eq rfl rfl fun t => ?_
    rcases eq_or_ne t s with rfl | ht <;> simp [updServ, *]
  have hnext : v.nextServ = w.nextServ := (congrArg World.nextServ (masterStatusCleanup_ok hv).1 :)
  exact (hset.statusCleanup hv).statusInit (hnext ▸ hs) hup

/-- The listen descriptor of a service without a pipe is disabled and closed. The service owns no
slot. -/
theorem Owned.silenced (h : w.Owned) (hpipe : (w.serv s).statusFd.1 = -1)
    (hhonest : (w.view s).Honest) (hsil : w.Silenced w' s) : w'.Owned ∧
      ∀ fd, (w'.masterEl.regEvents fd).mask ≠ eventNone →
        (w'.masterEl.regEvents fd).clientData ≠ some s := by
  have hserv : w'.serv = Function.update w.serv s { w.serv s with
      flags := { (w.serv s).flags with listen := false }
      listenFd := -1 } := (congrArg World.serv hsil.eq :)
  -- a slot with interest has not changed, and belongs to another service
  have hkept : ∀ fd, (w'.masterEl.regEvents fd).mask ≠ eventNone →
      w'.masterEl.regEvents fd = w.masterEl.regEvents fd ∧
        (w.masterEl.regEvents fd).clientData ≠ some s := by
    intro fd hmask
    have hslot := hsil.slot
    rcases eq_or_ne fd (w.serv s).listenFd with rfl | hne
    · split at hslot
      · rw [hslot] at hmask
        exact (hmask (h.mask_without _)).elim
      · rename_i hoff
        rw [hslot] at hmask
        refine ⟨hslot, fun hctx => ?_⟩
        have hr := (h.slot _).resolve_left hmask
        have hinterest : (w.view s).interest = true := by
          simp [view, interest, hr.range.2, hr.mask, eventRead]
        exact hoff ⟨(hhonest hinterest).1, hr.range.2⟩
    · have hreg := hsil.reg fd hne
      rw [hreg] at hmask
      refine ⟨hreg, fun hctx => ?_⟩
      have hr := (h.slot fd).resolve_left hmask
      obtain ⟨t, ht, hfd⟩ := hr.owner
      obtain rfl := Option.some.inj (hctx.symm.trans ht)
      have hpos := hr.range.1
      exact hne (hfd.resolve_right (by omega)).symm
  refine ⟨⟨fun t ht => ?_, fun fd => ?_⟩, fun fd hmask => (hkept fd hmask).1 ▸ (hkept fd hmask).2⟩
  · rw [(congrArg World.nextServ hsil.eq :)]
    rcases eq_or_ne t s with rfl | hne
    · rw [hserv, Function.update_self] at ht
      exact h.fresh t (Or.inr (ht.resolve_left (by simp)))
    · rw [hserv, Function.update_of_ne hne] at ht
      exact h.fresh t ht
  · by_cases hmask : (w'.masterEl.regEvents fd).mask = eventNone
    · exact Or.inl hmask
    · obtain ⟨hreg, hctx⟩ := hkept fd hmask
      have hr := (h.slot fd).resolve_left (by rwa [hreg] at hmask)
      refine Or.inr (hr.of_eq hsil.size hreg fun t ht hfd => ?_)
      have hne : t ≠ s := by
        rintro rfl
        exact hctx ht
      rwa [hserv, Function.update_of_ne hne]

end World

/-! ## The timers -/

section

variable {κ γ : Type} [DecidableEq κ] [DecidableEq γ] {q : TimerQueue κ γ} {callback : κ}
  {context : γ}

omit [DecidableEq κ] [DecidableEq γ] in
theorem TimerQueue.mem_looked {timer : EventTimer κ γ} {now : ℤ}
    (h : timer ∈ (q.looked now).timers) : timer ∈ q.timers := by
  unfold looked at h
  split at h
  · cases h
  · exact h

theorem eventRequestTimer_mem {delay now : ℤ} {r : ℤ × TimerQueue κ γ} {timer : EventTimer κ γ}
    (h : eventRequestTimer q callback context delay now = .ok r) (ht : timer ∈ r.2.timers) :
    timer.callback = callback ∨ timer ∈ q.timers := by
  unfold eventRequestTimer at h
  simp only at h
  split at h
  · cases h
  obtain rfl := Except.ok.inj h
  rcases List.mem_cons.1 ((List.perm_orderedInsert _ _ _).mem_iff.1 ht) with rfl | ht
  · exact Or.inl rfl
  · exact Or.inr (TimerQueue.mem_looked (List.mem_of_mem_eraseP ht))

theorem eventCancelTimer_mem {now : ℤ} {timer : EventTimer κ γ}
    (h : timer ∈ (eventCancelTimer q callback context now).2.timers) : timer ∈ q.timers := by
  rw [eventCancelTimer_eq] at h
  exact TimerQueue.mem_looked (List.mem_of_mem_eraseP h)

end

namespace World

/-- Every timer is a release, and only a throttled service has one, and then only one. -/
structure Timed (w : World) : Prop where
  fresh : ∀ s, (w.serv s).flags.throttle = true → s < w.nextServ
  release : ∀ timer ∈ w.timers.timers, timer.callback = .masterUnthrottleWrapper
  once : ∀ s, w.releases s ≤ if (w.serv s).flags.throttle then 1 else 0

theorem timed_init : masterInit.Timed where
  fresh s h := by simp [masterInit, masterServNone] at h
  release := by simp [masterInit]
  once s := by simp [releases, TimerQueue.countFor, masterInit]

variable {w w' : World} {s : ServPtr}

theorem Timed.le_one (h : w.Timed) (s : ServPtr) : w.releases s ≤ 1 := by
  have honce := h.once s
  split at honce <;> omega

/-- A service that is not throttled is in no timer. -/
theorem Timed.context_ne (h : w.Timed) (hthr : (w.serv s).flags.throttle = false) :
    ∀ timer ∈ w.timers.timers, timer.context ≠ s := by
  rintro timer ht rfl
  have hpos : 0 < w.releases timer.context :=
    List.countP_pos_iff.2 ⟨timer, ht, by simp [EventTimer.isFor, h.release timer ht]⟩
  have honce := h.once timer.context
  rw [hthr] at honce
  simp at honce
  omega

theorem Timed.of_eq (h : w.Timed) (htimers : w'.timers = w.timers)
    (hnext : w.nextServ ≤ w'.nextServ)
    (hthr : ∀ s, (w'.serv s).flags.throttle = (w.serv s).flags.throttle) : w'.Timed where
  fresh s hs := by
    rw [hthr] at hs
    exact (h.fresh s hs).trans_le hnext
  release := by
    rw [htimers]
    exact h.release
  once s := by
    rw [releases, htimers, hthr]
    exact h.once s

/-- The flag of one service changes, and the others have no more releases than before. -/
theorem Timed.of_flag (h : w.Timed) (hnext : w'.nextServ = w.nextServ) (hs : s < w.nextServ)
    (hrelease : ∀ timer ∈ w'.timers.timers,
      timer.callback = .masterUnthrottleWrapper ∨ timer ∈ w.timers.timers)
    (hself : w'.releases s ≤ if (w'.serv s).flags.throttle then 1 else 0)
    (hother : ∀ t, t ≠ s → w'.releases t ≤ w.releases t ∧
      (w'.serv t).flags.throttle = (w.serv t).flags.throttle) : w'.Timed where
  fresh t ht := by
    rw [hnext]
    rcases eq_or_ne t s with rfl | hne
    · exact hs
    · rw [(hother t hne).2] at ht
      exact h.fresh t ht
  release timer ht := (hrelease timer ht).elim id (h.release timer)
  once t := by
    rcases eq_or_ne t s with rfl | ht
    · exact hself
    · rw [(hother t ht).2]
      exact (hother t ht).1.trans (h.once t)

theorem Timed.move {clock : ℤ → Prop} {spawns : Prop} (hmove : World.Move clock spawns w w')
    (h : w.Timed) : w'.Timed := by
  cases hmove with
  | books heq hserv =>
    refine h.of_eq (congrArg World.timers heq :) (congrArg World.nextServ heq :).ge fun t => ?_
    obtain ⟨avail, total, ht⟩ := hserv t
    rw [ht]
  | woken s =>
    refine h.of_eq rfl le_rfl fun t => ?_
    rcases eq_or_ne t s with rfl | ht
    · rw [updServ_self]
    · rw [updServ_of_ne ht]
  | @rearm _ s hre =>
    exact h.of_eq (congrArg World.timers hre.eq :) (congrArg World.nextServ hre.eq :).ge
      hre.throttle
  | @throttle s now r hs hnow hthr hr =>
    obtain ⟨-, hself, hother⟩ := eventRequestTimer_countFor hr
    refine h.of_flag rfl hs (fun timer ht => eventRequestTimer_mem hr ht) ?_ fun t ht => ?_
    · have hle := (w.timers.looked_countFor_le now .masterUnthrottleWrapper s).trans (h.le_one s)
      have hone : r.2.countFor .masterUnthrottleWrapper s ≤ 1 := by omega
      simpa [releases, updServ] using hone
    · refine ⟨?_, by simp [updServ, ht]⟩
      exact (hother _ _ (release_ne ht)).trans_le (w.timers.looked_countFor_le now _ t)
  | @release s now hnow hthr =>
    obtain ⟨-, hself, hother⟩ := eventCancelTimer_countFor w.timers .masterUnthrottleWrapper s now
    refine h.of_flag rfl (h.fresh s hthr) (fun timer ht => Or.inr (eventCancelTimer_mem ht)) ?_
      fun t ht => ?_
    · have hle := (w.timers.looked_countFor_le now .masterUnthrottleWrapper s).trans (h.le_one s)
      have hnone : (w.released s now).releases s = 0 := by
        rw [releases]
        exact hself.trans (by omega)
      simpa [released, updServ] using hnone
    · refine ⟨?_, by simp [released, updServ, ht]⟩
      exact (hother _ _ (release_ne ht)).trans_le (w.timers.looked_countFor_le now _ t)
  | @expire timer timers now hfirst hnow hcb hthr =>
    have htimers := (eventFirstTimer_some hfirst).2
    have hcount := releases_of_first hfirst
    obtain ⟨-, hself, hother⟩ :=
      eventCancelTimer_countFor timers .masterUnthrottleWrapper timer.context now
    refine h.of_flag rfl (h.fresh _ hthr) (fun timer' ht => ?_) ?_ fun t ht => ?_
    · have hmem : timer' ∈ timers.timers := eventCancelTimer_mem ht
      exact Or.inr (htimers ▸ List.mem_cons_of_mem _ hmem)
    · have hle := timers.looked_countFor_le now .masterUnthrottleWrapper timer.context
      have hone := h.le_one timer.context
      rw [hcount, if_pos ⟨hcb, rfl⟩] at hone
      have hnone : ({ w with timers := timers }.released timer.context now).releases
          timer.context = 0 := by
        rw [releases]
        exact hself.trans (by omega)
      simpa [released, updServ] using hnone
    · refine ⟨?_, by simp [released, updServ, ht]⟩
      have hle := timers.looked_countFor_le now .masterUnthrottleWrapper t
      have hold := hcount t
      exact (hother _ _ (release_ne ht)).trans_le (by omega)
  | @drop timer timers hfirst hcb =>
    have htimers := (eventFirstTimer_some hfirst).2
    have hcount := releases_of_first hfirst
    refine ⟨h.fresh, fun timer' ht => h.release timer' ?_, fun s => ?_⟩
    · rw [htimers]
      exact List.mem_cons_of_mem _ ht
    · have hold := hcount s
      have hle : timers.countFor .masterUnthrottleWrapper s ≤ w.releases s := by omega
      exact hle.trans (h.once s)
  | clocked => exact ⟨h.fresh, h.release, h.once⟩
  | deafen heq hset =>
    exact h.of_eq (congrArg World.timers heq :) (congrArg World.nextServ heq :).ge fun s =>
      congrArg (fun serv => (serv s).flags.throttle) (congrArg World.serv heq :)

theorem Timed.start {ent : MasterEnt} {fds : ServFds} (h : w.Timed) (hst : w.Started w' ent fds) :
    w'.Timed := by
  refine h.of_eq (congrArg World.timers hst.eq :) (by rw [hst.nextServ]; exact Nat.le_succ _)
    fun s => ?_
  rcases eq_or_ne s w.nextServ with rfl | hs
  · rw [hst.serv_self]
    by_contra hne
    exact lt_irrefl _ (h.fresh _ ((Bool.not_eq_false _).mp fun hf => hne hf.symm))
  · rw [hst.serv_of_ne hs]

end World

/-! ## What a stop leaves -/

namespace World

/-- Nothing is left of a service : no timer, no slot with interest, no child, no flag. -/
structure Gone (w : World) (s : ServPtr) : Prop where
  timer : ∀ timer ∈ w.timers.timers, timer.context ≠ s
  slot : ∀ fd, (w.masterEl.regEvents fd).mask ≠ eventNone →
    (w.masterEl.regEvents fd).clientData ≠ some s
  child : ∀ p ∈ w.children, (w.proc p).serv ≠ s
  counts : (w.serv s).totalProc = 0 ∧ (w.serv s).availProc = 0
  flags : (w.serv s).flags.throttle = false ∧ (w.serv s).flags.listen = false

/-- A count of zero is one of no children. -/
theorem Account.no_child {w : World} {kids : Finset MasterPid} {s : ServPtr}
    (h : w.Account kids) (htotal : (w.serv s).totalProc ≤ 0) :
    (∀ p ∈ w.children, (w.proc p).serv ≠ s) ∧ (w.serv s).totalProc = 0 ∧
      (w.serv s).availProc = 0 := by
  have hcount := h.total s
  have hzero : w.totalOf s = 0 := by omega
  have hnone : ∀ p ∈ w.children, (w.proc p).serv ≠ s := by
    intro p hp he
    have hcountP := List.countP_eq_zero.1 hzero p hp
    simp [he] at hcountP
  have havail : w.availOf s = 0 := by
    rw [availOf, List.countP_eq_zero]
    intro p hp
    simp [hnone p hp]
  refine ⟨hnone, by omega, ?_⟩
  rw [h.availProc s, havail]
  rfl

end World

theorem WaitOk.take {kids : Finset MasterPid} {dead : List (List Waited)}
    (h : WaitOk kids dead.flatten) (n : ℕ) : WaitOk kids (dead.take n).flatten := by
  have hsub := (List.take_sublist n dead).flatten
  exact ⟨fun d hd => h.1 d (hsub.subset hd), h.2.sublist (hsub.map _)⟩

/-- The release clears the flag. -/
theorem masterUnthrottle_flag {w w' : World} {s : ServPtr} {now : ℤ}
    (h : masterUnthrottle w s now = .ok w') : (w'.serv s).flags.throttle = false := by
  rcases masterUnthrottle_ok h with ⟨-, hre⟩ | ⟨hthr, rfl⟩
  · rw [hre.serv_self]
    simp [released, updServ]
  · exact hthr

theorem masterStopService_gone {w w' : World} {kids : Finset MasterPid} {s : ServPtr}
    {dead : List (List Waited)} {now : ℤ} (ho : w.Owned) (ht : w.Timed) (hacc : w.Account kids)
    (hf : w.FdsOk) (hs : s < w.nextServ) (hpos : 0 ≤ (w.serv s).listenFd)
    (hhonest : (w.view s).Honest) (hwait : WaitOk kids dead.flatten)
    (h : masterStopService w s dead now = .ok (some w')) :
    w'.Gone s ∧ w'.Owned ∧ w'.Timed ∧ ∃ kids, w'.Account kids := by
  obtain ⟨v, t, u, r, hv, hthr, hwhile, hr, hsil⟩ := masterStopService_ok h
  obtain ⟨n, -, -, hreap, htotal, -⟩ := masterReapWhile_take hwhile
  -- the pipe is closed, and the service is reaped under the throttle
  obtain ⟨hfv, hlisten, hview⟩ := masterStatusCleanup_view hv hf
  have heqv := (masterStatusCleanup_ok hv).1
  have haccv := masterStatusCleanup_account hv hacc
  have hacct := haccv.of_same (masterThrottle_sameBooks hthr)
  have haccu := ((masterReapChild_books hacct (hwait.take n)).ok _ hreap).1
  have haccr := haccu.of_same (masterUnthrottle_sameBooks hr)
  have hsv : s < v.nextServ := (congrArg World.nextServ heqv :) ▸ hs
  have hmoves : World.Moves (fun _ => True) False v r :=
    reap_throttled_moves hthr hreap hr haccv (hwait.take n) hsv trivial fun _ _ => trivial
  have hacts : v.ActsAll r := (masterThrottle_acts hthr).all.trans
    ((masterReapChild_acts hreap).trans (masterUnthrottle_acts hr).all)
  have hor : r.Owned := hmoves.invariant (fun _ _ hmove hx => hx.move hmove) (ho.statusCleanup hv)
  have htv : v.Timed := by
    refine ht.of_eq (congrArg World.timers heqv :) (congrArg World.nextServ heqv :).ge fun x => ?_
    rw [heqv]
    rcases eq_or_ne x s with rfl | hx <;> simp [*]
  have htr : r.Timed := hmoves.invariant (fun _ _ hmove hx => hx.move hmove) htv
  -- what is left then
  have hpipe : (r.serv s).statusFd.1 = -1 := by
    rw [hacts.statusFd, heqv]
    simp
  have hhonestr : (r.view s).Honest := by
    have hsteps := hacts.steps hfv s (by rwa [hlisten])
    rw [hview s hpos] at hsteps
    exact hsteps.honest hhonest
  have hcountr : (r.serv s).totalProc ≤ 0 := by
    rwa [((masterUnthrottle_sameBooks hr).serv s).1]
  have hflag := masterUnthrottle_flag hr
  obtain ⟨hchild, htotalr, havailr⟩ := haccr.no_child hcountr
  obtain ⟨how, hslot⟩ := hor.silenced hpipe hhonestr hsil
  have hserv : w'.serv = Function.update r.serv s { r.serv s with
      flags := { (r.serv s).flags with listen := false }
      listenFd := -1 } := (congrArg World.serv hsil.eq :)
  have htimers : w'.timers = r.timers := (congrArg World.timers hsil.eq :)
  refine ⟨⟨?_, hslot, ?_, ?_, ?_⟩, how, ?_, _, hsil.account haccr⟩
  · rw [htimers]
    exact htr.context_ne hflag
  · rw [hsil.eq]
    exact hchild
  · rw [hserv, Function.update_self]
    exact ⟨htotalr, havailr⟩
  · rw [hserv, Function.update_self]
    exact ⟨hflag, rfl⟩
  · refine htr.of_eq htimers (congrArg World.nextServ hsil.eq :).ge fun x => ?_
    rw [hserv]
    rcases eq_or_ne x s with rfl | hx <;> simp [*]

/-! ## Runs -/

/-- The master is managed, the slots have their owners, and the timers are releases. -/
structure Family.Kept (m : Family) : Prop where
  managed : m.Managed
  owned : m.world.Owned
  timed : m.world.Timed

theorem Family.Kept.step {m m' : Family} {op : ReloadOp} (h : m.Kept)
    (hst : reloadSystem.step m op m') : m'.Kept := by
  suffices hinv : m'.world.Owned ∧ m'.world.Timed from
    ⟨(h.managed.step hst).1, hinv.1, hinv.2⟩
  obtain ⟨hallow, hexec, -⟩ := hst
  have hhead : ∀ s ∈ m.world.masterHead, s < m.world.nextServ := fun s hs =>
    (h.managed.head s hs).1
  cases op with
  | call op =>
    have hw := ok_of_map_some hexec
    by_cases hstart : ∃ ent fds, op = .start ent fds
    · obtain ⟨ent, fds, rfl⟩ := hstart
      have hst := masterConfigNew_ok hw hallow.1.read.2.2
      exact ⟨h.owned.start hallow.1 hst, h.timed.start hst⟩
    · have hmoves : World.Moves (fun _ => True) True m.world m'.world :=
        masterExec_moves h.managed.account hhead hallow.1 hallow.2 (fun _ _ => trivial) hw
          fun ent fds he => hstart ⟨ent, fds, he⟩
      exact ⟨hmoves.invariant (fun _ _ hmove hx => hx.move hmove) h.owned,
        hmoves.invariant (fun _ _ hmove hx => hx.move hmove) h.timed⟩
  | mark =>
    have heq : masterMark m.world = m'.world := Option.some.inj (Except.ok.inj hexec)
    rw [← heq]
    have hserv := masterMark_serv m.world
    refine ⟨h.owned.of_eq rfl rfl fun s => ?_, h.timed.of_eq rfl le_rfl fun s => ?_⟩
    · obtain ⟨mark, hs⟩ := hserv s
      rw [hs]
      exact ⟨rfl, rfl⟩
    · obtain ⟨mark, hs⟩ := hserv s
      rw [hs]
  | entry ent fds =>
    rcases masterConfigEnt_cases hallow (ok_of_map_some hexec) with
      ⟨-, hun, hst⟩ | ⟨s, -, hmem, -, hw⟩
    · exact ⟨h.owned.start hun hst, h.timed.start hst⟩
    · have hup := masterConfigUpdate_ok hw
      refine ⟨h.owned.update (hhead s hmem) hw,
        h.timed.of_eq (congrArg World.timers hup.eq :) hup.nextServ.ge fun t => ?_⟩
      rcases eq_or_ne t s with rfl | ht
      · rw [hup.serv_self]
        rfl
      · rw [hup.serv_of_ne ht]
  | remove s dead now =>
    obtain ⟨hs, -, hwait, -⟩ := hallow
    have hgone := masterStopService_gone
      (w := { m.world with masterHead := m.world.masterHead.filter (· ≠ s) })
      (h.owned.of_eq rfl rfl fun _ => ⟨rfl, rfl⟩) (h.timed.of_eq rfl le_rfl fun _ => rfl)
      (h.managed.account.of_eq rfl rfl rfl rfl fun _ => ⟨rfl, rfl⟩)
      ⟨h.managed.fds.listen, h.managed.fds.status⟩ (hhead s hs) (h.managed.head s hs).2.le
      (h.managed.honest s hs) hwait hexec
    exact ⟨hgone.2.1, hgone.2.2.1⟩

theorem Family.kept_of_reach {m : Family} (h : reloadSystem.Reach m) : m.Kept :=
  h.invariant (by rintro _ rfl; exact ⟨managed_init, owned_init, timed_init⟩)
    fun _ _ _ h hst => h.step hst

/-- When a stop of a service on the list returns, whether the service was taken off the list
before or not, nothing is left of the service, and the books of every service are in order. -/
theorem stop_leaves_nothing {m : Family} (h : reloadSystem.Reach m) {s : ServPtr}
    (hs : s ∈ m.world.masterHead) {head : List ServPtr} {dead : List (List Waited)} {now : ℤ}
    {w' : World} (hwait : WaitOk m.kids dead.flatten)
    (hstop : masterStopService { m.world with masterHead := head } s dead now = .ok (some w')) :
    w'.Gone s ∧ ∀ t, (w'.serv t).totalProc = w'.totalOf t ∧
      (w'.serv t).availProc = w'.availOf t := by
  have hk := Family.kept_of_reach h
  obtain ⟨hgone, -, -, kids, hacc⟩ := masterStopService_gone
    (w := { m.world with masterHead := head })
    (hk.owned.of_eq rfl rfl fun _ => ⟨rfl, rfl⟩) (hk.timed.of_eq rfl le_rfl fun _ => rfl)
    (hk.managed.account.of_eq rfl rfl rfl rfl fun _ => ⟨rfl, rfl⟩)
    ⟨hk.managed.fds.listen, hk.managed.fds.status⟩ (hk.managed.head s hs).1
    (hk.managed.head s hs).2.le (hk.managed.honest s hs) hwait hstop
  exact ⟨hgone, fun t => ⟨hacc.total t, hacc.availProc t⟩⟩

/-- `smtp` has one idle child, which dies when the service is stopped. -/
theorem stop_leaves_nothing_smtp : ∃ m w', reloadSystem.Reach m ∧
    (m.world.serv 0).totalProc = 1 ∧ (m.world.serv 0).availProc = 1 ∧
    masterStopService { m.world with masterHead := [] } 0 [[⟨100, 0, 1000⟩]] 1000 =
      .ok (some w') ∧ w'.Gone 0 := by
  have hrun : ((masterExec masterInit (.start (smtpEnt 0) smtpFds)).toOption.bind fun v =>
      [MasterOp.availEvent 0 (some 100) 1000].foldlM familyCall ⟨v, ∅⟩).any (fun m =>
        (m.world.serv 0).totalProc = 1 ∧ (m.world.serv 0).availProc = 1 ∧
        m.world.masterHead = [0] ∧ WaitOk m.kids [[⟨100, 0, 1000⟩]].flatten ∧
        (masterStopService { m.world with masterHead := [] } 0 [[⟨100, 0, 1000⟩]]
          1000).toOption.join.isSome = true) = true := by
    decide +kernel
  obtain ⟨m, hm, hobs⟩ := (Option.any_eq_true _ _).1 hrun
  obtain ⟨htotal, havail, hhead, hwait, hstop⟩ := of_decide_eq_true hobs
  obtain ⟨v, hv, hm⟩ := Option.bind_eq_some_iff.1 hm
  obtain ⟨⟨tr, htr, -⟩, -⟩ := run_of_familyCalls (toOption_eq_some hv) hm
  obtain ⟨w', hw'⟩ := Option.isSome_iff_exists.1 hstop
  have hok := toOption_eq_some (Option.join_eq_some_iff.1 hw')
  have hmem : 0 ∈ m.world.masterHead := by simp [hhead]
  exact ⟨m, w', ⟨tr, htr⟩, htotal, havail, hok, (stop_leaves_nothing ⟨tr, htr⟩ hmem hwait hok).1⟩

end Nowra
