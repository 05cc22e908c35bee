import Nowra.Availability

/-!
# Status messages across a reload

A new entry for a service replaces its status pipe, and the children of the service keep the old
one. What they write to it afterwards fails, `single_server_wakeup` logs a warning and goes on, and
the master keeps the status it knew.

The reports of the children that were there before a reload are heard after it in every
continuation if and only if none of them was alive (`reports_heard`).
-/

namespace Nowra

open World

namespace Farm

/-- What a child has reported since the pipe of its service was opened was read or is in the pipe,
its record has the last status that was read, and the service counts it. -/
def Heard (f : Farm) (p : ProcPtr) : Prop :=
  (f.channel (f.world.proc p).serv).Fifo p ∧
  ((f.channel (f.world.proc p).serv).received p ≠ [] → (f.world.proc p).avail =
    lastStatus ((f.channel (f.world.proc p).serv).received p)) ∧
  (f.world.serv (f.world.proc p).serv).availProc = f.world.availOf (f.world.proc p).serv

/-- A child that is dead and cut off, and has reported nothing to the pipe of its service. -/
structure Mute (f : Farm) (p : ProcPtr) (c : Child) : Prop where
  dead : c.alive = false
  cut : c.pipe < f.pipe c.serv
  sent : (f.channel c.serv).sent p = []

/-- A child that is cut off has nothing in the pipe of its service. -/
theorem Inv.inFlight_of_cut {f : Farm} (h : f.Inv) {p : ProcPtr} {c : Child}
    (hc : f.child p = some c) (hcut : c.pipe < f.pipe c.serv) :
    (f.channel c.serv).inFlight p = [] := by
  refine Channel.inFlight_eq_nil fun x hx he => ?_
  obtain ⟨d, hd, hserv, hpipe, -⟩ := h.queued c.serv x hx
  rw [he] at hd
  obtain rfl := Option.some.inj (hc.symm.trans hd)
  omega

theorem Inv.heard_of_linked {f : Farm} (h : f.Inv) {p : ProcPtr} {c : Child}
    (hc : f.child p = some c) (hp : p ∈ f.world.children) (hpipe : c.pipe = f.pipe c.serv) :
    f.Heard p := by
  have hl := h.linked p c hc hpipe
  unfold Heard
  rw [(h.record p c hc).2.2.1]
  exact ⟨hl.fifo, fun _ => hl.avail hp, h.managed.account.availProc _⟩

theorem Inv.heard_of_mute {f : Farm} (h : f.Inv) {p : ProcPtr} {c : Child}
    (hc : f.child p = some c) (hm : f.Mute p c) : f.Heard p := by
  have hreceived := h.unheard p c hc hm.cut
  unfold Heard
  rw [(h.record p c hc).2.2.1]
  refine ⟨?_, fun hne => (hne hreceived).elim, h.managed.account.availProc _⟩
  rw [Channel.Fifo, hm.sent, hreceived, h.inFlight_of_cut hc hm.cut, List.append_nil]

/-- A mute child stays mute. -/
theorem Mute.step {f f' : Farm} {op : FarmOp} {p : ProcPtr} {c : Child} (hm : f.Mute p c)
    (h : f.Inv) (hc : f.child p = some c) (hst : farmSystem.step f op f') :
    f'.child p = some c ∧ f'.Mute p c := by
  obtain ⟨hdead, hcut, hsent⟩ := hm
  -- a child that takes a step is another one
  have hne : ∀ q d, f.child q = some d → d.alive = true → p ≠ q := by
    rintro q d hd ha rfl
    obtain rfl := Option.some.inj (hc.symm.trans hd)
    rw [hdead] at ha
    cases ha
  cases hst with
  | call hread hst hpid hexited => exact ⟨h.born_of_some hc, hdead, hcut, hsent⟩
  | @entry ent fds family hst =>
    cases f.world.entryOf ent with
    | none => exact ⟨hc, hdead, hcut, hsent⟩
    | some s =>
      have hreopened : (f.reopened (some s)).Mute p c := by
        refine ⟨hdead, ?_, ?_⟩ <;> rcases eq_or_ne c.serv s with he | hne
        · rw [he, reopened_pipe_self]
          exact (he ▸ hcut).trans (Nat.lt_succ_self _)
        · rwa [f.reopened_pipe_of_ne hne]
        · rw [he, reopened_channel_self]
          rfl
        · rwa [f.reopened_channel_of_ne hne]
      exact ⟨hc, hreopened.dead, hreopened.cut, hreopened.sent⟩
  | @read s q stat queue family hqueue hevent hst =>
    refine ⟨hc, hdead, hcut, ?_⟩
    simp only
    rcases eq_or_ne c.serv s with he | hne
    · rw [he, Function.update_self, Channel.receive_sent]
      exact he ▸ hsent
    · rwa [Function.update_of_ne hne]
  | @run q d hd ha =>
    have hpq := hne q d hd ha
    refine ⟨(Function.update_of_ne hpq _ _).trans hc, hdead, hcut, ?_⟩
    simp only [runChild]
    cases d.phase.next.2 with
    | none => exact hsent
    | some status =>
      simp only
      rcases eq_or_ne c.serv d.serv with he | hne
      · rw [he, Function.update_self, masterNotify_sent, Channel.lose_sent_of_ne _ _ hpq]
        exact he ▸ hsent
      · rwa [Function.update_of_ne hne]
  | @exit q d hd ha =>
    exact ⟨(Function.update_of_ne (hne q d hd ha) _ _).trans hc, hdead, hcut, hsent⟩

/-- A child that is cut off and notifies the master is not heard. -/
theorem Inv.not_heard {f : Farm} (h : f.Inv) {p : ProcPtr} {c : Child} (hc : f.child p = some c)
    (ha : c.alive = true) (hcut : c.pipe < f.pipe c.serv) {status : BitVec 32}
    (hphase : c.phase.next.2 = some status) : ¬(f.runChild p c).Heard p := by
  rintro ⟨hfifo, -⟩
  have hinv := h.run hc ha
  have hc' : (f.runChild p c).child p = some { c with phase := c.phase.next.1 } :=
    Function.update_self _ _ _
  have hserv := (hinv.record p _ hc').2.2.1
  simp only at hserv
  rw [hserv, Channel.Fifo] at hfifo
  have hreceived := hinv.unheard p _ hc' hcut
  have hflight := hinv.inFlight_of_cut hc' hcut
  simp only at hreceived hflight
  rw [hreceived, hflight] at hfifo
  have hsent : ((f.runChild p c).channel c.serv).sent p =
      (f.channel c.serv).sent p ++ [⟨c.pid, status⟩] := by
    simp only [runChild, hphase, Function.update_self, masterNotify_sent, Channel.lose_sent_self]
  rw [hsent] at hfifo
  simp at hfifo

/-- A living child that is cut off can take steps after which it is not heard. -/
theorem Inv.exists_not_heard {f : Farm} (h : f.Inv) {p : ProcPtr} {c : Child}
    (hc : f.child p = some c) (ha : c.alive = true) (hcut : c.pipe < f.pipe c.serv) :
    ∃ tr g, farmSystem.Path f tr g ∧ p ∈ g.world.children ∧ ¬g.Heard p := by
  have hmem := h.alive p c hc ha
  cases hnotify : c.phase.next.2 with
  | some status =>
    exact ⟨_, _, .single (.run hc ha), hmem, h.not_heard hc ha hcut hnotify⟩
  | none =>
    -- the step after the next one notifies
    have hc' : (f.runChild p c).child p = some { c with phase := c.phase.next.1 } :=
      Function.update_self _ _ _
    obtain ⟨status, hnext⟩ : ∃ status, c.phase.next.1.next.2 = some status := by
      cases hphase : c.phase with
      | idle | serving => exact ⟨_, rfl⟩
      | accepted | served =>
        rw [hphase] at hnotify
        cases hnotify
    have hst : farmSystem.step f (.run p) (f.runChild p c) := .run hc ha
    have hst' : farmSystem.step (f.runChild p c) (.run p)
        ((f.runChild p c).runChild p { c with phase := c.phase.next.1 }) := .run hc' ha
    exact ⟨_, _, (LTS.Path.single hst).snoc hst', hmem, (h.run hc ha).not_heard hc' ha hcut hnext⟩

end Farm

/-- A new entry for a service comes when no child of the service is alive. -/
def FarmOp.FindsNobody (f : Farm) : FarmOp → Prop
  | .entry ent _ => ∀ s, f.world.entryOf ent = some s →
    ∀ p c, f.child p = some c → c.serv = s → c.alive = false
  | _ => True

namespace Farm

/-- After a new entry for its service a child is cut off. -/
theorem Inv.cut_off {f f' : Farm} {ent : MasterEnt} {fds : ServFds} {s : ServPtr} (h : f.Inv)
    (hst : farmSystem.step f (.entry ent fds) f') (hs : f.world.entryOf ent = some s)
    {p : ProcPtr} {c : Child} (hc : f.child p = some c) (hserv : c.serv = s) :
    f'.child p = some c ∧ c.pipe < f'.pipe c.serv ∧ (f'.channel c.serv).sent p = [] := by
  have hle := (h.record p c hc).2.2.2.2
  subst hserv
  cases hst with
  | @entry ent fds family hst =>
    rw [hs]
    have hpipe : c.pipe < (f.reopened (some c.serv)).pipe c.serv := by
      rw [reopened_pipe_self]
      exact Nat.lt_succ_of_le hle
    have hsent : ((f.reopened (some c.serv)).channel c.serv).sent p = [] := by
      rw [reopened_channel_self]
      rfl
    exact ⟨hc, hpipe, hsent⟩

/-- Every child writes to the pipe of its service, or it is mute. -/
def LinkedOrMute (f : Farm) : Prop :=
  ∀ p c, f.child p = some c → c.pipe = f.pipe c.serv ∨ f.Mute p c

theorem LinkedOrMute.step {f f' : Farm} {op : FarmOp} (h : f.LinkedOrMute) (hinv : f.Inv)
    (hop : op.FindsNobody f) (hst : farmSystem.step f op f') : f'.LinkedOrMute := by
  -- a child that was there before and has kept its pipe
  have hkept : ∀ {p : ProcPtr} {c c' : Child}, f.child p = some c' → f'.child p = some c →
      (c'.pipe = f.pipe c'.serv → c.pipe = f'.pipe c.serv ∨ f'.Mute p c) →
      c.pipe = f'.pipe c.serv ∨ f'.Mute p c := by
    intro p c c' hc' hc hpipe
    rcases h p c' hc' with hl | hm
    · exact hpipe hl
    · obtain ⟨hc'', hm'⟩ := hm.step hinv hc' hst
      obtain rfl := Option.some.inj (hc.symm.trans hc'')
      exact Or.inr hm'
  intro p c hc
  have hst' := hst
  cases hst with
  | call hread hst hpid hdead =>
    rcases hinv.born_eq_some.1 hc with hold | ⟨s, pid, -, -, rfl⟩
    · exact hkept hold hc Or.inl
    · exact Or.inl rfl
  | read hqueue hevent hst => exact hkept hc hc Or.inl
  | run hd ha =>
    obtain ⟨c', hold, hserv, hpipe, -⟩ := child_of_runChild hd hc
    exact hkept hold hc fun hl => Or.inl (hpipe.trans (hl.trans (congrArg f.pipe hserv.symm)))
  | exit hd ha =>
    obtain ⟨c', hold, hserv, hpipe, -⟩ := child_of_exitChild hd hc
    exact hkept hold hc fun hl => Or.inl (hpipe.trans (hl.trans (congrArg f.pipe hserv.symm)))
  | @entry ent fds family hst =>
    have hold : f.child p = some c := by
      cases hentry : f.world.entryOf ent with
      | none => simpa only [hentry, reopened] using hc
      | some s => simpa only [hentry, reopened] using hc
    refine hkept hold hc fun hl => ?_
    cases hentry : f.world.entryOf ent with
    | none => exact Or.inl hl
    | some s =>
      rcases eq_or_ne c.serv s with he | hne
      · obtain ⟨-, hcut, hsent⟩ := hinv.cut_off hst' hentry hold he
        have hdead := hop s hentry p c hold he
        rw [hentry] at hcut hsent
        exact Or.inr ⟨hdead, hcut, hsent⟩
      · exact Or.inl (hl.trans (f.reopened_pipe_of_ne hne).symm)

end Farm

/-- In a run whose new entries all come when no child of the service is alive, every child in the
table is heard. And after any new entry the children of the service that were there before are
heard for ever, as long as they are in the table, if and only if none of them was alive. -/
theorem reports_heard {f : Farm} {tr : List (Farm × FarmOp × Farm)} (h : farmSystem.Run tr f) :
    ((∀ x ∈ tr, x.2.1.FindsNobody x.1) → ∀ p ∈ f.world.children, f.Heard p) ∧
    ∀ ent fds f' s, farmSystem.step f (.entry ent fds) f' → f.world.entryOf ent = some s →
      ((∀ tr' g, farmSystem.Path f' tr' g → ∀ p c, f.child p = some c → c.serv = s →
          p ∈ g.world.children → g.Heard p) ↔
        ∀ p c, f.child p = some c → c.serv = s → c.alive = false) := by
  have hinv := Farm.inv_of_reach ⟨tr, h⟩
  constructor
  · intro hall p hp
    obtain ⟨f₀, rfl, hpath⟩ := h
    obtain ⟨⟨-, hl⟩, -⟩ := hpath.invariant_of (P := fun f => f.Inv ∧ f.LinkedOrMute)
      (C := fun f op => op.FindsNobody f) ⟨Farm.inv_init, nofun⟩
      (fun _ _ _ hf hop hst => ⟨hf.1.step hst, hf.2.step hf.1 hop hst⟩) hall
    obtain ⟨c, hc⟩ := hinv.known p hp
    rcases hl p c hc with hpipe | hm
    · exact hinv.heard_of_linked hc hp hpipe
    · exact hinv.heard_of_mute hc hm
  · intro ent fds f' s hst hs
    have hinv' := hinv.step hst
    constructor
    · intro hheard p c hc hserv
      by_contra ha
      obtain ⟨hc', hcut, -⟩ := hinv.cut_off hst hs hc hserv
      obtain ⟨tr', g, hpath, hp, hnot⟩ :=
        hinv'.exists_not_heard hc' ((Bool.not_eq_false _).mp ha) hcut
      exact hnot (hheard tr' g hpath p c hc hserv hp)
    · intro hdead tr' g hpath p c hc hserv hp
      obtain ⟨hc', hcut, hsent⟩ := hinv.cut_off hst hs hc hserv
      have hkeep := (hpath.invariant (P := fun g => g.Inv ∧ g.child p = some c ∧ g.Mute p c)
        ⟨hinv', hc', hdead p c hc hserv, hcut, hsent⟩
        fun _ _ _ ⟨hi, hg, hm⟩ hst => ⟨hi.step hst, hm.step hi hg hst⟩).1
      exact hkeep.1.heard_of_mute hkeep.2.1 hkeep.2.2

/-- A child has reported that it is taken and is available again. -/
theorem reports_heard_smtp : ∃ f tr, farmSystem.Run tr f ∧
    tr.map (fun x => x.2.1) = [.call (.start (smtpEnt 2) smtpFds),
      .call (.availEvent 0 (some 100) 1000), .run 0, .run 0, .read 0, .run 0, .run 0, .read 0] ∧
    0 ∈ f.world.children ∧ f.Heard 0 := by
  have hrun : (smtpFarm 2 [.call (.availEvent 0 (some 100) 1000), .run 0, .run 0, .read 0, .run 0,
      .run 0, .read 0]).any (fun f => f.world.children.contains 0) = true := by
    decide +kernel
  obtain ⟨f, hf, hmem⟩ := (Option.any_eq_true _ _).1 hrun
  obtain ⟨tr, htr, hops⟩ := run_of_smtpFarm hf
  have hmem' : 0 ∈ f.world.children := by simpa using hmem
  have hfinds : ∀ x ∈ tr, x.2.1.FindsNobody x.1 := by
    have hall : ∀ op ∈ tr.map (fun x => x.2.1), ∀ f, op.FindsNobody f := by
      rw [hops]
      simp [FarmOp.FindsNobody]
    exact fun x hx => hall _ (List.mem_map_of_mem hx) _
  exact ⟨f, tr, htr, hops, hmem', (reports_heard htr).1 hfinds 0 hmem'⟩

theorem farmCall_keeps {f f' : Farm} {op : FarmOp} (h : farmCall f op = some f') :
    f.world.Keeps f'.world := by
  cases op with
  | entry ent fds => cases h
  | call op =>
    simp only [farmCall] at h
    split at h
    · obtain ⟨family, hfam, rfl⟩ := Option.map_eq_some_iff.1 h
      exact familyCall_keeps hfam
    · cases h
  | read s =>
    simp only [farmCall] at h
    split at h
    · cases h
    · split at h
      · obtain ⟨family, hfam, rfl⟩ := Option.map_eq_some_iff.1 h
        exact familyCall_keeps hfam
      · cases h
  | run p | exit p =>
    obtain ⟨c, -, h⟩ := Option.bind_eq_some_iff.1 h
    split at h
    · obtain rfl := Option.some.inj h
      exact .refl _
    · cases h

/-- `smtp` is started, gets a new entry with the same pipe descriptors, and goes on. -/
def smtpRestart (limit limit' : ℕ) (ops ops' : List FarmOp) : Option Farm :=
  (smtpFarm limit ops).bind fun f =>
    if f.world.entryOf (smtpEnt limit') = some 0 then
      (masterConfigEnt f.world (smtpEnt limit', smtpFds)).toOption.bind fun w =>
        ops'.foldlM farmCall { f.reopened (some 0) with family := ⟨w, f.family.kids⟩ }
    else none

theorem run_of_smtpRestart {limit limit' : ℕ} {ops ops' : List FarmOp} {g : Farm}
    (h : smtpRestart limit limit' ops ops' = some g) : ∃ tr, farmSystem.Run tr g ∧
      tr.map (fun x => x.2.1) = .call (.start (smtpEnt limit) smtpFds) :: ops ++
        .entry (smtpEnt limit') smtpFds :: ops' := by
  obtain ⟨f, hf, h⟩ := Option.bind_eq_some_iff.1 h
  split at h
  · rename_i hentry
    obtain ⟨w, hw, h⟩ := Option.bind_eq_some_iff.1 h
    obtain ⟨tr, ⟨f₀, hinit, hp⟩, hops⟩ := run_of_smtpFarm hf
    obtain ⟨tr', hp', hops'⟩ := LTS.Path.of_foldlM (S := farmSystem)
      (fun _ _ _ => step_of_farmCall) h
    -- the calls before the entry have left the descriptors alone
    obtain ⟨v, hv, hcalls⟩ := Option.bind_eq_some_iff.1 hf
    obtain ⟨trk, hpk, -⟩ := LTS.Path.of_foldlM
      (S := ⟨fun _ => True, fun f op f' => farmCall f op = some f'⟩) (fun _ _ _ => id) hcalls
    have hkeeps : v.Keeps f.world := (hpk.invariant (P := fun f => v.Keeps f.world) (.refl v)
      fun _ _ _ hk hcall => hk.trans (farmCall_keeps hcall)).1
    have hst : reloadSystem.step f.family (.entry (smtpEnt limit') smtpFds)
        ⟨w, f.family.kids⟩ := by
      refine ⟨?_, bind_ok_iff.2 ⟨w, toOption_eq_some hw, rfl⟩, rfl⟩
      simp only [ReloadOp.Allowed, EntryFds, hentry]
      exact unusedPipe_smtp (toOption_eq_some hv) hkeeps
    have hentryStep : farmSystem.step f (.entry (smtpEnt limit') smtpFds)
        { f.reopened (some 0) with family := ⟨w, f.family.kids⟩ } := hentry ▸ .entry hst
    exact ⟨_, ⟨f₀, hinit, hp.trans (hp'.cons hentryStep)⟩, by simp [hops, hops']⟩
  · cases h

/-- A child is forked, the service gets a new entry, and the child takes a connection. Its message
is lost, and the master goes on counting it as available. -/
theorem report_lost_smtp : ∃ f tr, farmSystem.Run tr f ∧
    tr.map (fun x => x.2.1) = [.call (.start (smtpEnt 2) smtpFds),
      .call (.availEvent 0 (some 100) 1000), .entry (smtpEnt 2) smtpFds, .run 0, .run 0] ∧
    0 ∈ f.world.children ∧ (f.channel 0).sent 0 = [⟨100, masterStatTaken⟩] ∧
    (f.channel 0).received 0 = [] ∧ (f.channel 0).queue = [] ∧
    (f.world.proc 0).avail = masterStatAvail ∧ (f.world.serv 0).availProc = 1 ∧ ¬f.Heard 0 := by
  have hrun : (smtpRestart 2 2 [.call (.availEvent 0 (some 100) 1000)] [.run 0, .run 0]).any
      (fun f => f.world.children.contains 0 ∧
        (f.channel 0).sent 0 = [⟨100, masterStatTaken⟩] ∧ (f.channel 0).received 0 = [] ∧
        (f.channel 0).queue = [] ∧ (f.world.proc 0).avail = masterStatAvail ∧
        (f.world.proc 0).serv = 0 ∧ (f.world.serv 0).availProc = 1) = true := by
    decide +kernel
  obtain ⟨f, hf, hobs⟩ := (Option.any_eq_true _ _).1 hrun
  obtain ⟨hmem, hsent, hreceived, hqueue, havail, hserv, hcount⟩ := of_decide_eq_true hobs
  obtain ⟨tr, htr, hops⟩ := run_of_smtpRestart hf
  refine ⟨f, tr, htr, hops, by simpa using hmem, hsent, hreceived, hqueue, havail, hcount, ?_⟩
  rintro ⟨hfifo, -⟩
  rw [hserv, Channel.Fifo, hsent, hreceived, Channel.inFlight, hqueue] at hfifo
  simp at hfifo

end Nowra
