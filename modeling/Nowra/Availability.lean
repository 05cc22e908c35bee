import Nowra.Children

/-!
# Master and children agree on availability

Without a reload every child writes to the pipe its service has (`Farm.Attached`), and the
invariant of the children gives the agreement (`availability_agrees`). The record of a child has
the status of the last message that was read from it. When the pipe of a service is drained and no
child is between what it does and the notification of it, `avail_proc` counts the idle children.
-/

namespace Nowra

open World

namespace Farm

/-- Every child writes to the pipe that its service has. -/
def Attached (f : Farm) : Prop :=
  ∀ p c, f.child p = some c → c.pipe = f.pipe c.serv

/-- No child of the service is between `accept` and the notification that it is taken, or between
the end of the service and the notification that it is available. -/
def Settled (f : Farm) (s : ServPtr) : Prop :=
  ∀ p ∈ f.world.children, ∀ c, f.child p = some c → c.serv = s →
    c.phase = .idle ∨ c.phase = .serving

/-- How many children of the service are in the table and were idle when last seen. -/
def idleOf (f : Farm) (s : ServPtr) : ℕ :=
  f.world.children.countP fun p => (f.child p).any fun c => c.serv = s ∧ c.phase = .idle

end Farm

/-- The step is part of a reload. -/
def FarmOp.IsReload : FarmOp → Prop
  | .entry _ _ => True
  | _ => False

namespace Farm

theorem Attached.step {f f' : Farm} {op : FarmOp} (h : f.Attached) (hinv : f.Inv)
    (hop : ¬op.IsReload) (hst : farmSystem.step f op f') : f'.Attached := by
  cases hst with
  | call hread hst hpid hdead =>
    intro p c hc
    rcases hinv.born_eq_some.1 hc with hc | ⟨s, pid, -, -, rfl⟩
    · exact h p c hc
    · rfl
  | entry hst => exact (hop trivial).elim
  | read hqueue hevent hst => exact h
  | run hc ha =>
    intro q d hd
    obtain ⟨d', hd', hserv, hpipe, -⟩ := child_of_runChild hc hd
    exact hpipe.trans ((h q d' hd').trans (congrArg f.pipe hserv.symm))
  | exit hc ha =>
    intro q d hd
    obtain ⟨d', hd', hserv, hpipe, -⟩ := child_of_exitChild hc hd
    exact hpipe.trans ((h q d' hd').trans (congrArg f.pipe hserv.symm))

/-- The status of a record is that of the last message read. -/
theorem Inv.avail_eq {f : Farm} (h : f.Inv) (ha : f.Attached) {p : ProcPtr}
    (hp : p ∈ f.world.children) : (f.world.proc p).avail =
      lastStatus ((f.channel (f.world.proc p).serv).received p) := by
  obtain ⟨c, hc⟩ := h.known p hp
  rw [(h.record p c hc).2.2.1]
  exact (h.linked p c hc (ha p c hc)).avail hp

/-- When the pipe is drained, it is that of the phase. -/
theorem Inv.avail_phase {f : Farm} (h : f.Inv) (ha : f.Attached) {p : ProcPtr} {c : Child}
    (hp : p ∈ f.world.children) (hc : f.child p = some c) (hq : (f.channel c.serv).queue = []) :
    (f.world.proc p).avail = c.phase.status := by
  have hl := h.linked p c hc (ha p c hc)
  rw [hl.avail hp, hl.fifo.drained hq, hl.phase]

theorem Inv.availProc_eq {f : Farm} (h : f.Inv) (ha : f.Attached) {s : ServPtr}
    (hq : (f.channel s).queue = []) (hs : f.Settled s) :
    (f.world.serv s).availProc = f.idleOf s := by
  rw [h.managed.account.availProc s, availOf, idleOf, Nat.cast_inj]
  refine List.countP_congr fun p hp => ?_
  obtain ⟨c, hc⟩ := h.known p hp
  have hserv := (h.record p c hc).2.2.1
  simp only [hc, Option.any_some, decide_eq_true_eq]
  rw [hserv]
  refine and_congr_right fun he => ?_
  rw [h.avail_phase ha hp hc (he ▸ hq)]
  rcases hs p hp c hc he with hphase | hphase <;> rw [hphase] <;> decide

end Farm

/-- Without a reload, the record of a child in the table has the status of the last message that
was read from it, and a service whose pipe is drained counts its idle children. -/
theorem availability_agrees {f : Farm} {tr : List (Farm × FarmOp × Farm)}
    (h : farmSystem.Run tr f) (hno : ∀ x ∈ tr, ¬x.2.1.IsReload) :
    (∀ p ∈ f.world.children, (f.world.proc p).avail =
      lastStatus ((f.channel (f.world.proc p).serv).received p)) ∧
    ∀ s, (f.channel s).queue = [] → f.Settled s → (f.world.serv s).availProc = f.idleOf s := by
  obtain ⟨f₀, rfl, hp⟩ := h
  obtain ⟨⟨hinv, ha⟩, -⟩ := hp.invariant_of (P := fun f => f.Inv ∧ f.Attached)
    (C := fun _ op => ¬op.IsReload) ⟨Farm.inv_init, nofun⟩
    (fun _ _ _ hf hop hst => ⟨hf.1.step hst, hf.2.step hf.1 hop hst⟩) hno
  exact ⟨fun p hp => hinv.avail_eq ha hp, fun s hq hs => hinv.availProc_eq ha hq hs⟩

/-- One child serves, and one is idle. -/
theorem availability_agrees_two : ∃ f tr, farmSystem.Run tr f ∧
    tr.map (fun x => x.2.1) = [.call (.start (smtpEnt 2) smtpFds),
      .call (.availEvent 0 (some 100) 1000), .run 0, .run 0, .read 0,
      .call (.availEvent 0 (some 101) 1001)] ∧
    (f.world.proc 0).avail = lastStatus ((f.channel 0).received 0) ∧
    (f.world.serv 0).availProc = f.idleOf 0 ∧ f.idleOf 0 = 1 := by
  have hrun : (smtpFarm 2 [.call (.availEvent 0 (some 100) 1000), .run 0, .run 0, .read 0,
      .call (.availEvent 0 (some 101) 1001)]).any (fun f => f.world.children.contains 0 ∧
        (f.world.proc 0).serv = 0 ∧ (f.channel 0).queue.isEmpty ∧
        (f.world.children.all fun p => (f.child p).all fun c =>
          c.phase = .idle ∨ c.phase = .serving) ∧ f.idleOf 0 = 1) = true := by
    decide +kernel
  obtain ⟨f, hf, hobs⟩ := (Option.any_eq_true _ _).1 hrun
  obtain ⟨hmem, hserv, hqueue, hphase, hidle⟩ := of_decide_eq_true hobs
  obtain ⟨tr, htr, hops⟩ := run_of_smtpFarm hf
  have hno : ∀ x ∈ tr, ¬x.2.1.IsReload := by
    have hall : ∀ op ∈ tr.map (fun x => x.2.1), ¬op.IsReload := by
      rw [hops]
      simp [FarmOp.IsReload]
    exact fun x hx => hall _ (List.mem_map_of_mem hx)
  obtain ⟨havail, hcount⟩ := availability_agrees htr hno
  have hsettled : f.Settled 0 := by
    intro p hp c hc _
    have hall := List.all_eq_true.1 hphase p hp
    simpa [hc] using hall
  refine ⟨f, tr, htr, hops, ?_, hcount 0 (List.isEmpty_iff.1 hqueue) hsettled, hidle⟩
  have h0 := havail 0 (by simpa using hmem)
  rwa [hserv] at h0

end Nowra
