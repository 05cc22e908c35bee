import Nowra.Refresh

/-!
# Status messages

A child writes its pid and its availability to the status pipe of its service. The master looks the
pid up in the table, which has the children of all services, and takes the message for gossip : a
pid that is not found, an availability it has recorded already and one it does not know are passed
over. A pid that finds a child of another service is not : `master_status_event` panics.

In every consistent state (`Family.managed_of_reach`) a message is taken without a panic if and only
if its pid is not that of another service's child (`status_gossip_iff`). No child need send garbage
for such a message. It is enough that a pid is used again before the last message of its former
owner is read (`not_status_gossip`).
-/

namespace Nowra

open World

/-- A record that is not available is announced without a panic. -/
theorem masterAvailMore_returns {w : World} {s : ServPtr} {p : ProcPtr}
    (havail : (w.proc p).avail ≠ masterStatAvail) (hfd : 0 ≤ (w.serv s).listenFd) :
    ∃ w', masterAvailMore w s p = .ok w' := by
  have hlisten : ((w.more s p).serv s).listenFd = (w.serv s).listenFd := by
    simp [World.more, updProc]
  unfold masterAvailMore
  rw [if_neg havail]
  rcases masterAvailListen_spec (w.more s p) s with ⟨hneg, -⟩ | ⟨w', hok, -⟩
  · omega
  · exact ⟨w', hok⟩

theorem masterAvailLess_returns {w : World} {s : ServPtr} {p : ProcPtr}
    (havail : (w.proc p).avail = masterStatAvail) (hfd : 0 ≤ (w.serv s).listenFd) :
    ∃ w', masterAvailLess w s p = .ok w' := by
  have hlisten : ((w.less s p).serv s).listenFd = (w.serv s).listenFd := by
    simp [World.less, updProc]
  unfold masterAvailLess
  rw [if_neg (not_not.2 havail)]
  rcases masterAvailListen_spec (w.less s p) s with ⟨hneg, -⟩ | ⟨w', hok, -⟩
  · omega
  · exact ⟨w', hok⟩

/-- A message about a child of the service is taken, whatever it says. -/
theorem masterStatusEvent_own {w : World} {kids : Finset MasterPid} {event : ℤ} {s : ServPtr}
    {stat : MasterStatus} {p : ProcPtr} (h : w.Account kids) (hfd : 0 ≤ (w.serv s).listenFd)
    (hfind : binhashFind w.masterChildTable (pidKey stat.pid) = some p)
    (hserv : (w.proc p).serv = s) : ∃ w', masterStatusEvent w event s (.stat stat) = .ok w' := by
  obtain ⟨hp, -⟩ := h.find.1 hfind
  unfold masterStatusEvent
  split
  · exact ⟨w, rfl⟩
  simp only [hfind, hserv, ne_eq, not_true_eq_false, if_false]
  split
  · exact ⟨w, rfl⟩
  rename_i hne
  split
  · rename_i hstat
    rw [hstat] at hne
    exact masterAvailMore_returns (by simpa [updProc] using hne) hfd
  split
  · rename_i hstat
    rw [hstat] at hne
    exact masterAvailLess_returns ((h.avail p hp).resolve_right hne) hfd
  · exact ⟨w, rfl⟩

/-- A message about a child of another service is not. -/
theorem masterStatusEvent_other {w : World} {event : ℤ} {s : ServPtr} {stat : MasterStatus}
    {p : ProcPtr} (hevent : event ≠ 0)
    (hfind : binhashFind w.masterChildTable (pidKey stat.pid) = some p)
    (hserv : (w.proc p).serv ≠ s) :
    masterStatusEvent w event s (.stat stat) = .error (.pointerCorruption (w.proc p).serv s) := by
  unfold masterStatusEvent
  simp only [if_neg hevent, hfind, if_pos hserv]
  rfl

/-- In every consistent state `master_status_event` takes a message of any child without a panic if
and only if the pid in it is not the pid of a child of another service. Called for no event it does
not read the message. -/
theorem status_gossip_iff {m : Family} (h : m.Managed) {s : ServPtr} (hs : s ∈ m.world.masterHead)
    (event : ℤ) (stat : MasterStatus) :
    (∃ w', masterStatusEvent m.world event s (.stat stat) = .ok w') ↔
      event = 0 ∨
        ∀ p ∈ m.world.children, (m.world.proc p).pid = stat.pid → (m.world.proc p).serv = s := by
  by_cases hevent : event = 0
  · refine iff_of_true ⟨m.world, ?_⟩ (Or.inl hevent)
    exact if_pos hevent
  constructor
  · rintro ⟨w', hok⟩
    refine Or.inr fun p hp hpid => ?_
    by_contra hserv
    have herr := masterStatusEvent_other hevent (h.account.find.2 ⟨hp, hpid⟩) hserv
    cases herr.symm.trans hok
  · intro hall
    have hall := hall.resolve_left hevent
    cases hfind : binhashFind m.world.masterChildTable (pidKey stat.pid) with
    | none =>
      refine ⟨m.world, ?_⟩
      unfold masterStatusEvent
      simp only [if_neg hevent, hfind]
      rfl
    | some p =>
      obtain ⟨hp, hpid⟩ := h.account.find.1 hfind
      exact masterStatusEvent_own h.account (h.head s hs).2.le hfind (hall p hp hpid)

/-! ## Two services -/

/-- `smtp` and `pop3` are started and take calls. -/
def smtpPopCalls (ops : List MasterOp) : Option Family :=
  (masterExec masterInit (.start (smtpEnt 0) smtpFds)).toOption.bind fun v =>
    (masterExec v (.start popEnt popFds)).toOption.bind fun w => ops.foldlM familyCall ⟨w, ∅⟩

theorem run_of_smtpPopCalls {ops : List MasterOp} {m : Family} (h : smtpPopCalls ops = some m) :
    ∃ tr, reloadSystem.Run tr m ∧ tr.map (fun x => x.2.1) =
      .call (.start (smtpEnt 0) smtpFds) :: .call (.start popEnt popFds) :: ops.map .call := by
  obtain ⟨v, hv, h⟩ := Option.bind_eq_some_iff.1 h
  obtain ⟨w, hw, h⟩ := Option.bind_eq_some_iff.1 h
  have hv := toOption_eq_some hv
  have hstart : reloadSystem.step ⟨masterInit, ∅⟩ (.call (.start (smtpEnt 0) smtpFds)) ⟨v, ∅⟩ :=
    step_of_quiet smtpFds_unused rfl rfl hv
  have hstart' : reloadSystem.step ⟨v, ∅⟩ (.call (.start popEnt popFds)) ⟨w, ∅⟩ :=
    step_of_quiet (popFds_unused hv (fun _ => rfl) fun _ => rfl) rfl rfl (toOption_eq_some hw)
  obtain ⟨⟨tr, hp, hmap⟩, -⟩ := path_of_familyCalls h
  exact ⟨_, ⟨_, rfl, (hp.cons hstart').cons hstart⟩, by simp [hmap]⟩

/-- Both services have a child, and the one of `smtp` says that it is busy. -/
theorem status_gossip_iff_busy : ∃ m tr, reloadSystem.Run tr m ∧
    tr.map (fun x => x.2.1) = [.call (.start (smtpEnt 0) smtpFds), .call (.start popEnt popFds),
      .call (.availEvent 0 (some 100) 1000), .call (.availEvent 1 (some 101) 1000)] ∧
    ∃ w', masterStatusEvent m.world 7 0 (.stat ⟨100, masterStatTaken⟩) = .ok w' := by
  have hrun : (smtpPopCalls [.availEvent 0 (some 100) 1000, .availEvent 1 (some 101) 1000]).any
      (fun m => 0 ∈ m.world.masterHead ∧
        ∀ p ∈ m.world.children, (m.world.proc p).pid = 100 → (m.world.proc p).serv = 0) = true := by
    decide +kernel
  obtain ⟨m, hm, hobs⟩ := (Option.any_eq_true _ _).1 hrun
  obtain ⟨hhead, hown⟩ := of_decide_eq_true hobs
  obtain ⟨tr, htr, hops⟩ := run_of_smtpPopCalls hm
  exact ⟨m, tr, htr, hops, (status_gossip_iff (Family.managed_of_reach ⟨tr, htr⟩) hhead
    7 ⟨100, masterStatTaken⟩).2 (Or.inr hown)⟩

/-- A child of `smtp` exits and is reaped, `pop3` gets a child with the same pid, and then the last
message of the former child is read. -/
theorem not_status_gossip : ∃ m tr, reloadSystem.Run tr m ∧
    tr.map (fun x => x.2.1) = [.call (.start (smtpEnt 0) smtpFds), .call (.start popEnt popFds),
      .call (.availEvent 0 (some 100) 1000), .call (.reapChild [⟨100, 0, 1001⟩]),
      .call (.availEvent 1 (some 100) 1001)] ∧
    0 ∈ m.world.masterHead ∧
    masterStatusEvent m.world 7 0 (.stat ⟨100, masterStatTaken⟩) =
      .error (.pointerCorruption 1 0) := by
  have hrun : (smtpPopCalls [.availEvent 0 (some 100) 1000, .reapChild [⟨100, 0, 1001⟩],
      .availEvent 1 (some 100) 1001]).any (fun m => 0 ∈ m.world.masterHead ∧
        (binhashFind m.world.masterChildTable (pidKey 100)).any fun p =>
          (m.world.proc p).serv = 1) = true := by
    decide +kernel
  obtain ⟨m, hm, hobs⟩ := (Option.any_eq_true _ _).1 hrun
  obtain ⟨hhead, hfound⟩ := of_decide_eq_true hobs
  obtain ⟨p, hfind, hserv⟩ := (Option.any_eq_true _ _).1 hfound
  have hserv : (m.world.proc p).serv = 1 := of_decide_eq_true hserv
  obtain ⟨tr, htr, hops⟩ := run_of_smtpPopCalls hm
  have herr : masterStatusEvent m.world 7 0 (.stat ⟨100, masterStatTaken⟩) =
      .error (.pointerCorruption (m.world.proc p).serv 0) :=
    masterStatusEvent_other (by decide) hfind (by rw [hserv]; decide)
  rw [hserv] at herr
  exact ⟨m, tr, htr, hops, hhead, herr⟩

end Nowra
