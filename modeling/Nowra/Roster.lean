import Nowra.Reload

/-!
# The records of the children

What a call does to the records of `master_child_table`. A record keeps its pid and its service
for ever, and its `avail` as long as it is in the table and no status message comes from its
child (`World.Roster`). A successful `fork` adds one record, which is available (`World.Born`).
A status message writes its status into the record of its pid (`World.Reported`).
-/

namespace Nowra

open World

/-- No record but new ones enters the table, and the records in it have kept their status. -/
structure World.Roster (w w' : World) : Prop where
  nextProc : w.nextProc ≤ w'.nextProc
  ident : ∀ p < w.nextProc,
    (w'.proc p).pid = (w.proc p).pid ∧ (w'.proc p).serv = (w.proc p).serv
  kept : ∀ p ∈ w'.children, p < w.nextProc →
    p ∈ w.children ∧ (w'.proc p).avail = (w.proc p).avail

/-- A child of a service has a record, which is available. -/
structure World.Born (w w' : World) (s : ServPtr) (pid : MasterPid) : Prop where
  nextProc : w'.nextProc = w.nextProc + 1
  mem : w.nextProc ∈ w'.children
  pid : (w'.proc w.nextProc).pid = pid
  serv : (w'.proc w.nextProc).serv = s
  avail : (w'.proc w.nextProc).avail = masterStatAvail

/-- The roster is kept, and the child that is forked, if there is one, is born. -/
structure World.Enrolls (w w' : World) (forked : Option (ServPtr × MasterPid)) : Prop where
  roster : w.Roster w'
  nextProc : forked = none → w'.nextProc = w.nextProc
  born : ∀ s pid, forked = some (s, pid) → w.Born w' s pid

/-- The service that a call forks a child for, and the pid that `fork` returns. -/
def MasterOp.forks (w : World) : MasterOp → Option (ServPtr × MasterPid)
  | .spawn s fork _ => fork.map (s, ·)
  | .availEvent s fork _ => (availEventFork (w.serv s) (w.serv s).listenFd fork).map (s, ·)
  | _ => none

theorem MasterOp.forked_eq (w : World) (op : MasterOp) :
    op.forked w = (op.forks w).map (·.2) := by
  cases op with
  | spawn s fork now => cases fork <;> rfl
  | availEvent s fork now =>
    simp only [MasterOp.forked, MasterOp.forks]
    cases availEventFork (w.serv s) (w.serv s).listenFd fork <;> rfl
  | start | throttle | unthrottle | statusEvent | reapChild | timer => rfl

namespace World

theorem Roster.refl (w : World) : w.Roster w :=
  ⟨le_rfl, fun _ _ => ⟨rfl, rfl⟩, fun _ hp _ => ⟨hp, rfl⟩⟩

theorem Roster.trans {w w' w'' : World} (h : w.Roster w') (h' : w'.Roster w'') :
    w.Roster w'' := by
  refine ⟨h.nextProc.trans h'.nextProc, fun p hp => ?_, fun p hp hlt => ?_⟩
  · obtain ⟨hpid, hserv⟩ := h'.ident p (hp.trans_le h.nextProc)
    exact ⟨hpid.trans (h.ident p hp).1, hserv.trans (h.ident p hp).2⟩
  · obtain ⟨hmem, havail⟩ := h'.kept p hp (hlt.trans_le h.nextProc)
    exact ⟨(h.kept p hmem hlt).1, havail.trans (h.kept p hmem hlt).2⟩

/-- The table lists the same records, which are the same. -/
theorem Roster.of_eq {w w' : World} (hchildren : w'.children = w.children)
    (hproc : w'.proc = w.proc) (hnext : w'.nextProc = w.nextProc) : w.Roster w' := by
  refine ⟨hnext.ge, fun p _ => by rw [hproc]; exact ⟨rfl, rfl⟩, fun p hp _ => ?_⟩
  rw [hproc]
  exact ⟨hchildren ▸ hp, rfl⟩

theorem SameBooks.roster {w w' : World} (h : w.SameBooks w') : w.Roster w' :=
  .of_eq (by rw [children, children, h.table]) h.proc h.nextProc

/-- A call that forks no child. -/
theorem Roster.enrolls {w w' : World} (h : w.Roster w') (hnext : w'.nextProc = w.nextProc) :
    w.Enrolls w' none where
  roster := h
  nextProc _ := hnext
  born s pid he := by cases he

theorem SameBooks.enrolls {w w' : World} (h : w.SameBooks w') : w.Enrolls w' none :=
  h.roster.enrolls h.nextProc

end World

/-- A record in the table is an old one, or that of the child that was forked. -/
theorem World.Enrolls.mem_cases {w w' : World} {forked : Option (ServPtr × MasterPid)}
    {kids : Finset MasterPid} (h : w.Enrolls w' forked) (hacc : w'.Account kids) {p : ProcPtr}
    (hp : p ∈ w'.children) :
    (p < w.nextProc ∧ p ∈ w.children ∧ (w'.proc p).avail = (w.proc p).avail) ∨
      ∃ s pid, forked = some (s, pid) ∧ p = w.nextProc := by
  by_cases hlt : p < w.nextProc
  · exact Or.inl ⟨hlt, h.roster.kept p hp hlt⟩
  · have hlt' := (hacc.fresh p hp).1
    cases hforked : forked with
    | none =>
      rw [h.nextProc hforked] at hlt'
      exact (hlt hlt').elim
    | some x =>
      rw [(h.born x.1 x.2 hforked).nextProc] at hlt'
      exact Or.inr ⟨x.1, x.2, rfl, le_antisymm (Nat.lt_succ_iff.1 hlt') (not_lt.1 hlt)⟩

/-! ## Reaping -/

/-- A deletion takes the record off the counts and then off the table. -/
theorem masterDeleteChild_uncounted {w w' : World} {p : ProcPtr}
    (h : masterDeleteChild w p = .ok w') :
    ∃ v, w.Uncounted v p ∧
      binhashDelete w.masterChildTable (pidKey (w.proc p).pid) = .ok w'.masterChildTable ∧
      w' = { v with masterChildTable := w'.masterChildTable } := by
  obtain ⟨v, hdel, heq, hcases⟩ := masterDeleteChild_ok h
  have hun : w.Uncounted v p := by
    rcases hcases with ⟨hav, hre⟩ | ⟨hne, hre⟩ | ⟨hne, rfl, -⟩
    · exact (uncounted_less hav).of_same hre.sameBooks
    · exact (uncounted_dropped hne).of_same hre.sameBooks
    · exact uncounted_dropped hne
  rw [hun.table, hun.pid] at hdel
  exact ⟨v, hun, hdel, heq⟩

theorem masterDeleteChild_roster {w w' : World} {kids : Finset MasterPid} {p : ProcPtr}
    (hacc : w.Account kids) (hp : p ∈ w.children) (h : masterDeleteChild w p = .ok w') :
    w.Roster w' ∧ w'.nextProc = w.nextProc := by
  obtain ⟨v, hun, hdel, heq⟩ := masterDeleteChild_uncounted h
  have hperm : w.children.Perm (p :: w'.children) := (hacc.delete hp hdel hun).2
  have hproc : w'.proc = v.proc := (congrArg World.proc heq :)
  have hnext : w'.nextProc = w.nextProc := (congrArg World.nextProc heq :).trans hun.nextProc
  refine ⟨⟨hnext.ge, fun q _ => ?_, fun q hq _ => ?_⟩, hnext⟩
  · rw [hproc]
    rcases eq_or_ne q p with rfl | hne
    · exact ⟨hun.pid, hun.owner⟩
    · rw [hun.other q hne]
      exact ⟨rfl, rfl⟩
  · have hne : q ≠ p := by
      rintro rfl
      have hnd := hperm.nodup_iff.1 hacc.children_nodup
      exact (List.nodup_cons.1 hnd).1 hq
    rw [hproc, hun.other q hne]
    exact ⟨hperm.mem_iff.2 (List.mem_cons_of_mem p hq), rfl⟩

theorem masterReap_roster {w w' : World} {kids : Finset MasterPid} {dead : Waited}
    (hacc : w.Account kids) (h : masterReap w dead = .ok w') :
    w.Roster w' ∧ w'.nextProc = w.nextProc := by
  obtain ⟨p, v, hfind, hv, hdel⟩ := masterReap_ok h
  have hsame : w.SameBooks v := by
    rcases hv with hthr | rfl
    · exact masterThrottle_sameBooks hthr
    · exact ⟨rfl, rfl, rfl, rfl, fun _ => ⟨rfl, rfl, rfl⟩⟩
  have hp : p ∈ v.children := by
    rw [children, hsame.table]
    exact (hacc.find.1 hfind).1
  obtain ⟨hroster, hnext⟩ := masterDeleteChild_roster (hacc.of_same hsame) hp hdel
  exact ⟨hsame.roster.trans hroster, hnext.trans hsame.nextProc⟩

theorem masterReapChild_roster {dead : List Waited} : ∀ {w w' : World} {kids : Finset MasterPid},
    w.Account kids → WaitOk kids dead → masterReapChild w dead = .ok w' →
    w.Roster w' ∧ w'.nextProc = w.nextProc := by
  induction dead with
  | nil =>
    intro w w' kids _ _ h
    obtain rfl := Except.ok.inj h
    exact ⟨.refl _, rfl⟩
  | cons d dead ih =>
    intro w w' kids hacc hwait h
    obtain ⟨v, hv, h⟩ := bind_ok_iff.1 h
    obtain ⟨hmem, hwait'⟩ := hwait.cons
    obtain ⟨hroster, hnext⟩ := masterReap_roster hacc hv
    obtain ⟨hroster', hnext'⟩ := ih ((masterReap_books hacc hmem).ok _ hv).1 hwait' h
    exact ⟨hroster.trans hroster', hnext'.trans hnext⟩

/-- A deletion leaves the other records alone. -/
theorem masterDeleteChild_kept {w w' : World} {kids : Finset MasterPid} {p q : ProcPtr}
    (hacc : w.Account kids) (hp : p ∈ w.children) (h : masterDeleteChild w p = .ok w')
    (hq : q ∈ w.children) (hne : q ≠ p) : q ∈ w'.children ∧ w'.proc q = w.proc q := by
  obtain ⟨v, hun, hdel, heq⟩ := masterDeleteChild_uncounted h
  have hperm : w.children.Perm (p :: w'.children) := (hacc.delete hp hdel hun).2
  exact ⟨(List.mem_cons.1 (hperm.mem_iff.1 hq)).resolve_left hne,
    (congrFun (congrArg World.proc heq) q :).trans (hun.other q hne)⟩

theorem masterReap_kept {w w' : World} {kids : Finset MasterPid} {dead : Waited} {q : ProcPtr}
    (hacc : w.Account kids) (h : masterReap w dead = .ok w') (hq : q ∈ w.children)
    (hne : dead.pid ≠ (w.proc q).pid) : q ∈ w'.children ∧ w'.proc q = w.proc q := by
  obtain ⟨p, v, hfind, hv, hdel⟩ := masterReap_ok h
  obtain ⟨hp, hpid⟩ := hacc.find.1 hfind
  have hsame : w.SameBooks v := by
    rcases hv with hthr | rfl
    · exact masterThrottle_sameBooks hthr
    · exact ⟨rfl, rfl, rfl, rfl, fun _ => ⟨rfl, rfl, rfl⟩⟩
  have hchildren : v.children = w.children := by rw [children, children, hsame.table]
  rw [← hchildren] at hp hq
  obtain ⟨hmem, hproc⟩ := masterDeleteChild_kept (hacc.of_same hsame) hp hdel hq fun he =>
    hne (he ▸ hpid.symm)
  exact ⟨hmem, hproc.trans (congrFun hsame.proc q)⟩

/-- A record whose pid `waitpid` does not return stays as it is. -/
theorem masterReapChild_kept {dead : List Waited} {q : ProcPtr} :
    ∀ {w w' : World} {kids : Finset MasterPid}, w.Account kids → WaitOk kids dead →
      masterReapChild w dead = .ok w' → q ∈ w.children →
      (∀ d ∈ dead, d.pid ≠ (w.proc q).pid) → q ∈ w'.children ∧ w'.proc q = w.proc q := by
  induction dead with
  | nil =>
    intro w w' kids _ _ h hq _
    obtain rfl := Except.ok.inj h
    exact ⟨hq, rfl⟩
  | cons d dead ih =>
    intro w w' kids hacc hwait h hq hne
    obtain ⟨v, hv, h⟩ := bind_ok_iff.1 h
    obtain ⟨hmem, hwait'⟩ := hwait.cons
    obtain ⟨hqv, hproc⟩ := masterReap_kept hacc hv hq (hne d (by simp))
    have hrest : ∀ d' ∈ dead, d'.pid ≠ (v.proc q).pid := fun d' hd' => by
      rw [hproc]
      exact hne d' (by simp [hd'])
    obtain ⟨hq', hproc'⟩ := ih ((masterReap_books hacc hmem).ok _ hv).1 hwait' h hqv hrest
    exact ⟨hq', hproc'.trans hproc⟩

/-! ## Spawning -/

theorem masterSpawn_roster {w w' : World} {kids : Finset MasterPid} {s : ServPtr}
    {fork : Option MasterPid} {now : ℤ} (hacc : w.Account kids) (hs : s < w.nextServ)
    (hfork : ∀ pid, fork = some pid → pid ∉ kids) (h : masterSpawn w s fork now = .ok w') :
    w.Enrolls w' (fork.map (s, ·)) := by
  obtain ⟨-, ⟨rfl, hthr⟩ | ⟨pid, v, rfl, hre, rfl⟩⟩ := masterSpawn_ok h
  · have hsame := masterThrottle_sameBooks hthr
    have htabled : w.Roster w.tabled :=
      .of_eq (by rw [children, children, hacc.tabled_list]) rfl rfl
    exact (htabled.trans hsame.roster).enrolls hsame.nextProc
  · have hperm := (hacc.forked (hfork pid rfl) hs).2
    have hchildren : v.children = (w.forked s pid).children := by
      rw [children, children, hre.sameBooks.table]
      rfl
    have hproc : v.proc = ((w.forked s pid).more s w.nextProc).proc := hre.sameBooks.proc
    have hnext : v.nextProc = w.nextProc + 1 := hre.sameBooks.nextProc
    have hself : v.proc w.nextProc = ⟨pid, masterStatAvail, s, 0⟩ := by
      rw [hproc]
      simp [World.more, World.forked, updProc, updServ]
    have hother : ∀ p, p ≠ w.nextProc → v.proc p = w.proc p := fun p hp => by
      rw [hproc]
      simp [World.more, World.forked, updProc, updServ, hp]
    refine ⟨⟨by simp [updServ, hnext], fun p hp => ?_, fun p hp hlt => ?_⟩, by simp,
      fun s' pid' he => ?_⟩
    · exact ⟨congrArg MasterProc.pid (hother p hp.ne), congrArg MasterProc.serv (hother p hp.ne)⟩
    · have hp' : p ∈ w.nextProc :: w.children := hperm.mem_iff.1 (hchildren ▸ hp)
      exact ⟨(List.mem_cons.1 hp').resolve_left hlt.ne,
        congrArg MasterProc.avail (hother p hlt.ne)⟩
    · obtain ⟨rfl, rfl⟩ := Prod.mk.inj (Option.some.inj he)
      have hmem : w.nextProc ∈ v.children := hchildren ▸ hperm.mem_iff.2 (by simp)
      exact ⟨hnext, hmem, congrArg MasterProc.pid hself, congrArg MasterProc.serv hself,
        congrArg MasterProc.avail hself⟩

/-- A call that is no status event enrolls the child that it forks. -/
theorem masterExec_enrolls {m : Family} {w' : World} {op : MasterOp}
    (hacc : m.world.Account m.kids) (hhead : ∀ s ∈ m.world.masterHead, s < m.world.nextServ)
    (hallow : op.Allowed m.world) (hker : op.KernelOk m)
    (hread : ∀ s read, op ≠ .statusEvent s read) (h : masterExec m.world op = .ok w') :
    m.world.Enrolls w' (op.forks m.world) := by
  obtain ⟨hfork, hwait⟩ := hker
  cases op with
  | statusEvent s read => exact (hread s read rfl).elim
  | start ent fds =>
    have hst := masterConfigNew_ok h hallow.read.2.2
    have hroster : m.world.Roster w' := .of_eq
      (by rw [children, children, (congrArg World.masterChildTable hst.eq :)])
      (congrArg World.proc hst.eq :) (congrArg World.nextProc hst.eq :)
    exact hroster.enrolls (congrArg World.nextProc hst.eq :)
  | throttle s now => exact (masterThrottle_sameBooks h).enrolls
  | unthrottle s now => exact (masterUnthrottle_sameBooks h).enrolls
  | timer now =>
    exact ((clocked_sameBooks _ now).trans ((masterTimer_books _ now).ok _ h)).enrolls
  | reapChild dead =>
    obtain ⟨hroster, hnext⟩ := masterReapChild_roster hacc hwait h
    exact hroster.enrolls hnext
  | spawn s fork now => exact masterSpawn_roster hacc (hhead s hallow) hfork h
  | availEvent s fork now =>
    simp only [MasterOp.forked, MasterOp.forks, availEventFork] at hfork ⊢
    obtain ⟨hev, rfl⟩ | ⟨hev, hthr, heq, -⟩ | ⟨hev, hthr, hspawn⟩ := masterAvailEvent_ok h
    · rw [if_pos (Or.inl hev)]
      exact (Roster.refl _).enrolls rfl
    · rw [if_pos (Or.inr hthr), heq]
      have hroster : m.world.Roster { m.world with masterEl := w'.masterEl } := .of_eq rfl rfl rfl
      exact hroster.enrolls rfl
    · have hno : ¬((m.world.serv s).listenFd = 0 ∨ (m.world.serv s).flags.throttle = true) := by
        simp [hev, hthr]
      rw [if_neg hno] at hfork ⊢
      exact masterSpawn_roster hacc (hhead s hallow.1) hfork hspawn

theorem mem_kidsAfter {kids : Finset MasterPid} {pid : MasterPid} (h : pid ∈ kids)
    (fork : Option MasterPid) : pid ∈ kidsAfter kids fork := by
  cases fork with
  | none => exact h
  | some pid' => exact Finset.mem_insert_of_mem h

theorem mem_kidsLeft {pid : MasterPid} {dead : List Waited} : ∀ {kids : Finset MasterPid},
    pid ∈ kids → (∀ d ∈ dead, d.pid ≠ pid) → pid ∈ kidsLeft kids dead := by
  induction dead with
  | nil => exact fun h _ => h
  | cons d dead ih =>
    intro kids h hne
    exact ih (Finset.mem_erase.2 ⟨(hne d (by simp)).symm, h⟩) fun d' hd' => hne d' (by simp [hd'])

/-- A record stays in the table unless `waitpid` returns its pid. -/
theorem World.Enrolls.stays {m m' : Family} {op : MasterOp} (hacc : m.world.Account m.kids)
    (hacc' : m'.world.Account m'.kids) (he : m.world.Enrolls m'.world (op.forks m.world))
    (hker : op.KernelOk m) (hkids : m'.kids = (ReloadOp.call op).kids m) {p : ProcPtr}
    (hp : p ∈ m.world.children) (hdead : ∀ d ∈ op.reaped, d.pid ≠ (m.world.proc p).pid) :
    p ∈ m'.world.children := by
  have hkid : (m.world.proc p).pid ∈ m.kids := (hacc.kids _).2 ⟨p, hp, rfl⟩
  have hkid' : (m.world.proc p).pid ∈ m'.kids := by
    rw [hkids]
    exact mem_kidsLeft (mem_kidsAfter hkid _) hdead
  obtain ⟨q, hq, hqpid⟩ := (hacc'.kids _).1 hkid'
  obtain ⟨hqlt, hqold, -⟩ | ⟨s, pid, hforks, rfl⟩ := he.mem_cases hacc' hq
  · have hqp := hacc.eq_of_pid hqold hp ((he.roster.ident q hqlt).1.symm.trans hqpid)
    exact hqp ▸ hq
  · -- the pid of the new child is none of an old one
    have hforked : op.forked m.world = some pid := by
      rw [MasterOp.forked_eq, hforks]
      rfl
    have hnew := (he.born s pid hforks).pid
    exact (hker.1 pid hforked (hnew.symm.trans hqpid ▸ hkid)).elim

/-! ## Status messages -/

/-- What a status message changes of the records. -/
structure World.Reported (w w' : World) (stat : MasterStatus) : Prop where
  children : w'.children = w.children
  nextProc : w'.nextProc = w.nextProc
  ident : ∀ q, (w'.proc q).pid = (w.proc q).pid ∧ (w'.proc q).serv = (w.proc q).serv
  avail : ∀ q ∈ w.children, (w'.proc q).avail =
    if (w.proc q).pid = stat.pid then stat.avail else (w.proc q).avail

/-- The status is now in the record that the pid finds. -/
theorem World.Reported.of_proc {w w' : World} {kids : Finset MasterPid} {stat : MasterStatus}
    {p : ProcPtr} (hacc : w.Account kids) (hp : p ∈ w.children) (hpid : (w.proc p).pid = stat.pid)
    (htable : w'.masterChildTable = w.masterChildTable) (hnext : w'.nextProc = w.nextProc)
    (hself : (w'.proc p).pid = (w.proc p).pid ∧ (w'.proc p).serv = (w.proc p).serv ∧
      (w'.proc p).avail = stat.avail) (hother : ∀ q, q ≠ p → w'.proc q = w.proc q) :
    w.Reported w' stat := by
  refine ⟨by rw [World.children, World.children, htable], hnext, fun q => ?_, fun q hq => ?_⟩
  · rcases eq_or_ne q p with rfl | hne
    · exact ⟨hself.1, hself.2.1⟩
    · rw [hother q hne]
      exact ⟨rfl, rfl⟩
  · rcases eq_or_ne q p with rfl | hne
    · rw [if_pos hpid, hself.2.2]
    · have hpid' : (w.proc q).pid ≠ stat.pid := fun he =>
        hne (hacc.eq_of_pid hq hp (he.trans hpid.symm))
      rw [if_neg hpid', hother q hne]

/-- A status message writes its status into the record of its pid, and leaves the others. -/
theorem masterStatusEvent_reported {w w' : World} {kids : Finset MasterPid} {event : ℤ}
    {s : ServPtr} {stat : MasterStatus} (hacc : w.Account kids) (hev : event ≠ 0)
    (hst : stat.avail = masterStatAvail ∨ stat.avail = masterStatTaken)
    (h : masterStatusEvent w event s (.stat stat) = .ok w') : w.Reported w' stat := by
  unfold masterStatusEvent at h
  rw [if_neg hev] at h
  simp only at h
  split at h
  · rename_i hfind
    obtain rfl := Except.ok.inj h
    refine ⟨rfl, rfl, fun _ => ⟨rfl, rfl⟩, fun q hq => ?_⟩
    have hpid : (w.proc q).pid ≠ stat.pid := by
      intro he
      rw [hacc.find.2 ⟨hq, he⟩] at hfind
      cases hfind
    rw [if_neg hpid]
  rename_i p hfind
  obtain ⟨hp, hpid⟩ := hacc.find.1 hfind
  split at h
  · cases h
  split at h
  · rename_i havail
    obtain rfl := Except.ok.inj h
    exact .of_proc hacc hp hpid rfl rfl ⟨rfl, rfl, havail⟩ fun _ _ => rfl
  split at h
  · rename_i hav
    have hsame := (masterAvailMore_ok h).2.sameBooks
    have hproc := hsame.proc
    refine .of_proc hacc hp hpid hsame.table hsame.nextProc ?_ fun q hq => ?_
    · rw [hproc]
      simp [World.more, updProc, updServ, hav]
    · rw [hproc]
      simp [World.more, updProc, updServ, hq]
  split at h
  · rename_i htaken
    have hsame := (masterAvailLess_ok h).2.sameBooks
    have hproc := hsame.proc
    refine .of_proc hacc hp hpid hsame.table hsame.nextProc ?_ fun q hq => ?_
    · rw [hproc]
      simp [World.less, updProc, updServ, htaken]
    · rw [hproc]
      simp [World.less, updProc, updServ, hq]
  · rename_i hav htaken
    exact (hst.elim hav htaken).elim

end Nowra
