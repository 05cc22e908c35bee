import Nowra.Operation

/-!
# Listen sockets stay monitored

Between two calls, `MASTER_FLAG_LISTEN` of a service should be set if and only if its listen
descriptor has read interest, and a service with spare capacity and no available child should
have it (`World.Monitored`). Two calls break this and no other does (`monitored_iff`).

* A connection event for a throttled service : `master_avail_event` disables the interest and
  leaves the flag set. Once the throttle is released, `master_avail_listen` takes the socket
  for monitored, and the service stays deaf.
* The start of a service whose listen descriptor is outside the event table : the flag is set
  although `event_enable_rw` returns `-1`.
-/

namespace Nowra

open World

/-- Flag and interest agree for every service, and a service that is not throttled, has no
available child and may create one has read interest in its listen descriptor. -/
def World.Monitored (w : World) : Prop :=
  ∀ s ∈ w.masterHead,
    ((w.serv s).flags.listen = true ↔ w.interest (w.serv s).listenFd = true) ∧
    ((w.serv s).flags.throttle = false → (w.serv s).availProc = 0 →
      masterLimitOk (w.serv s).maxProc (w.serv s).totalProc = true →
      w.interest (w.serv s).listenFd = true)

/-- A start gets a listen descriptor inside the event table, and a connection event comes to a
service that is not throttled. -/
def MasterOp.Heard (w : World) : MasterOp → Prop
  | .start _ fds => fds.listenFd < w.masterEl.size
  | .availEvent s _ _ => (w.serv s).flags.throttle = false
  | _ => True

instance (w : World) : (op : MasterOp) → Decidable (op.Heard w)
  | .start _ fds => inferInstanceAs (Decidable (fds.listenFd < w.masterEl.size))
  | .availEvent s _ _ => inferInstanceAs (Decidable ((w.serv s).flags.throttle = false))
  | .spawn _ _ _ | .throttle _ _ | .unthrottle _ _ | .statusEvent _ _ | .reapChild _ | .timer _ =>
    inferInstanceAs (Decidable True)

/-- Every service is armed, agreed, and has a descriptor of its own inside the table. -/
structure World.Listens (w : World) : Prop where
  fds : w.FdsOk
  head : ∀ s ∈ w.masterHead, s < w.nextServ ∧ 0 < (w.serv s).listenFd
  view : ∀ s ∈ w.masterHead, (w.view s).inTable = true ∧ (w.view s).Armed ∧ (w.view s).Agreed

theorem World.Listens.monitored {w : World} (h : w.Listens) : w.Monitored := by
  intro s hs
  obtain ⟨-, harmed, hagreed⟩ := h.view s hs
  refine ⟨hagreed, fun hthr havail hlimit => hagreed.1 ((harmed hthr).2 ⟨?_, hlimit⟩)⟩
  exact le_of_eq havail

theorem listens_init : masterInit.Listens where
  fds := fdsOk_init
  head := by simp [masterInit]
  view := by simp [masterInit]

/-- A call other than a start that takes the monitors through steps keeps them listening. -/
theorem World.Listens.acts {w w' : World} (h : w.Listens) (ha : w.ActsAll w') :
    w'.Listens where
  fds := ha.fdsOk h.fds
  head s hs := by
    rw [ha.head] at hs
    rw [ha.nextServ, ha.listenFd]
    exact h.head s hs
  view s hs := by
    rw [ha.head] at hs
    obtain ⟨hin, harmed, hagreed⟩ := h.view s hs
    have hsteps := ha.steps h.fds s (h.head s hs).2.le
    exact ⟨hsteps.inTable.trans hin, hsteps.armed harmed, hsteps.agreed hagreed hin⟩

/-- A start inside the table adds a service that listens. -/
theorem World.Listens.start {w w' : World} {ent : MasterEnt} {fds : ServFds} (h : w.Listens)
    (hun : w.Unused fds) (hst : w.Started w' ent fds) (hin : fds.listenFd < w.masterEl.size) :
    w'.Listens := by
  have hold : ∀ s ∈ w.masterHead, s ≠ w.nextServ := fun s hs => (h.head s hs).1.ne
  refine ⟨hst.fdsOk hun h.fds, fun s hs => ?_, fun s hs => ?_⟩
  all_goals
    rw [hst.head] at hs
    rcases List.mem_cons.1 hs with rfl | hs
  · rw [hst.nextServ, hst.serv_self]
    exact ⟨Nat.lt_succ_self _, lt_of_le_of_ne hst.listenFd hun.listen.1.symm⟩
  · rw [hst.nextServ, hst.serv_of_ne (hold s hs)]
    exact ⟨(h.head s hs).1.trans (Nat.lt_succ_self _), (h.head s hs).2⟩
  · rw [hst.view_self]
    have hspare : (0 : ℤ) ≤ 0 ∧ masterLimitOk ent.maxProc 0 = true :=
      ⟨le_rfl, limitOk_zero ent.maxProc_nonneg⟩
    exact ⟨by simpa using hin, fun _ => ⟨fun _ => hspare, fun _ => rfl⟩,
      by simp [Monitor.Agreed, hin]⟩
  · rw [hst.view_of_ne hun (hold s hs)]
    exact h.view s hs

/-- A step that is heard keeps every service listening. -/
theorem World.Listens.step {w w' : World} {op : MasterOp} (h : w.Listens) (hc : op.Heard w)
    (hst : masterSystem.step w op w') : w'.Listens := by
  obtain ⟨hallow, hexec⟩ := hst
  cases op with
  | start ent fds => exact h.start hallow (masterConfigNew_ok hexec hallow.read.2.2) hc
  | spawn | throttle | unthrottle | statusEvent | reapChild | timer =>
    exact h.acts (masterExec_acts hexec nofun id)
  | availEvent s fork now =>
    have hthr : (w.serv s).flags.throttle = false := hc
    exact h.acts (masterExec_acts hexec nofun (by simp [MasterOp.OnThrottled, hthr]))

/-- A step that is not heard leaves a service with the flag and without the interest. -/
theorem World.Listens.not_monitored {w w' : World} {op : MasterOp} (h : w.Listens)
    (hc : ¬op.Heard w) (hst : masterSystem.step w op w') : ¬w'.Monitored := by
  obtain ⟨hallow, hexec⟩ := hst
  cases op with
  | spawn | throttle | unthrottle | statusEvent | reapChild | timer => exact (hc trivial).elim
  | start ent fds =>
    have hst := masterConfigNew_ok hexec hallow.read.2.2
    intro hm
    have hview := hst.view_self
    have hagreed := (hm w.nextServ (by rw [hst.head]; simp)).1
    have hlisten : (w'.view w.nextServ).listening = true := by rw [hview]
    have hinterest : (w'.view w.nextServ).interest = true := hagreed.1 hlisten
    rw [hview, decide_eq_true_eq] at hinterest
    exact hc hinterest
  | availEvent s fork now =>
    have hs : s ∈ w.masterHead := hallow.1
    have hthr : (w.serv s).flags.throttle = true := by simpa [MasterOp.Heard] using hc
    obtain ⟨hev, -⟩ | ⟨-, -, heq, hset⟩ | ⟨-, hthr', -⟩ := masterAvailEvent_ok hexec
    · exact absurd hev (h.head s hs).2.ne'
    · intro hm
      have hhead : w'.masterHead = w.masterHead := (congrArg World.masterHead heq :)
      have hserv : w'.serv = w.serv := (congrArg World.serv heq :)
      have hin : (w.serv s).listenFd < w.masterEl.size := by
        simpa [World.view] using (h.view s hs).1
      have hflag : (w'.serv s).flags.listen = true := by
        rw [hserv]
        exact (h.view s hs).2.2.2 hallow.2
      have hinterest := (hm s (hhead ▸ hs)).1.1 hflag
      simp [World.interest, hserv, hset.self hin, eventRead] at hinterest
    · simp [hthr] at hthr'

/-- Listen sockets stay monitored all along a run if and only if every start gets a listen
descriptor inside the event table and no connection event comes to a throttled service. -/
theorem monitored_iff {w : World} {tr : List (World × MasterOp × World)}
    (h : masterSystem.Run tr w) :
    (∀ m ∈ tr, m.1.Monitored ∧ m.2.2.Monitored) ↔ ∀ m ∈ tr, m.2.1.Heard m.1 :=
  h.forall_iff (I := World.Listens) (by rintro _ rfl; exact listens_init)
    (fun _ => World.Listens.monitored) (fun _ _ _ h hc hst => h.step hc hst)
    (fun _ _ _ h hc hst => h.not_monitored hc hst)

/-- A `fork` fails and the service is throttled and released. Then its first child runs. The service
is monitored all along. -/
theorem monitored_iff_smtp : ∃ w, ∃ tr, masterSystem.Run tr w ∧
    tr.map (fun m => m.2.1) = [.start (smtpEnt 1) smtpFds, .availEvent 0 none 1000, .timer 1010,
      .availEvent 0 (some 100) 1011] ∧
    (w.serv 0).totalProc = 1 ∧ ∀ m ∈ tr, m.1.Monitored ∧ m.2.2.Monitored := by
  have hrun : ((masterExec masterInit (.start (smtpEnt 1) smtpFds)).toOption.bind fun v =>
      [MasterOp.availEvent 0 none 1000, .timer 1010, .availEvent 0 (some 100) 1011].foldlM
        (fun w op => if op.Heard w then masterCall w op else none) v).map
          (fun w => (w.serv 0).totalProc) = some 1 := by
    decide +kernel
  obtain ⟨w, hw, htotal⟩ := Option.map_eq_some_iff.1 hrun
  obtain ⟨v, hv, hw⟩ := Option.bind_eq_some_iff.1 hw
  obtain ⟨tr, hp, hops, hheard⟩ := LTS.Path.of_foldlM_of (S := masterSystem)
    (fun _ _ _ => step_of_masterCall) hw
  have hst : masterSystem.step masterInit (.start (smtpEnt 1) smtpFds) v :=
    ⟨smtpFds_unused, toOption_eq_some hv⟩
  have hall : ∀ m ∈ (masterInit, .start (smtpEnt 1) smtpFds, v) :: tr, m.2.1.Heard m.1 := by
    refine List.forall_mem_cons.2 ⟨?_, hheard⟩
    exact (by decide : smtpFds.listenFd < masterInit.masterEl.size)
  exact ⟨w, _, ⟨_, rfl, hp.cons hst⟩, by simp [hops], htotal,
    (monitored_iff ⟨_, rfl, hp.cons hst⟩).2 hall⟩

/-- `fork` fails and the service is throttled. A connection comes before the throttle is
released. After the release the service is not throttled, has no child and may create one, and
nobody monitors its listen socket. -/
theorem not_monitored_smtp : ∃ w, ∃ tr, masterSystem.Run tr w ∧
    tr.map (fun m => m.2.1) = [.start (smtpEnt 1) smtpFds, .availEvent 0 none 1000,
      .availEvent 0 none 1001, .timer 1010] ∧
    0 ∈ w.masterHead ∧ (w.serv 0).flags.throttle = false ∧ (w.serv 0).availProc = 0 ∧
    masterLimitOk (w.serv 0).maxProc (w.serv 0).totalProc = true ∧
    (w.serv 0).flags.listen = true ∧ w.interest (w.serv 0).listenFd = false ∧ ¬w.Monitored := by
  have hrun : ((masterExec masterInit (.start (smtpEnt 1) smtpFds)).toOption.bind fun v =>
      [MasterOp.availEvent 0 none 1000, .availEvent 0 none 1001, .timer 1010].foldlM
        masterCall v).map (fun w => (w.masterHead, (w.serv 0).flags.throttle,
          (w.serv 0).availProc, masterLimitOk (w.serv 0).maxProc (w.serv 0).totalProc,
          (w.serv 0).flags.listen, w.interest (w.serv 0).listenFd)) =
      some ([0], false, 0, true, true, false) := rfl
  obtain ⟨w, hw, hobs⟩ := Option.map_eq_some_iff.1 hrun
  obtain ⟨tr, htr, hops⟩ := run_of_calls smtpFds_unused hw
  simp only [Prod.mk.injEq] at hobs
  obtain ⟨hhead, hthr, havail, hlimit, hlisten, hinterest⟩ := hobs
  have hmem : 0 ∈ w.masterHead := by simp [hhead]
  refine ⟨w, tr, htr, hops, hmem, hthr, havail, hlimit, hlisten, hinterest, fun hm => ?_⟩
  have hdeaf := (hm 0 hmem).2 hthr havail hlimit
  simp [hinterest] at hdeaf

end Nowra
