import Mathlib.Data.Finset.Basic
import Nowra.Operation

/-!
# Process accounting

The records in `master_child_table` and the counters of the services say the same
(`World.Account`) : `total_proc` counts a service's records and `avail_proc` the available ones,
the pids are distinct, and they are the children that `waitpid` has not returned yet.

Every call keeps the books and reaches no panic about them (`masterExec_books`), as long as
`fork` returns no pid that `waitpid` still has to return.
-/

namespace Nowra

namespace World

/-- The records in the table. -/
def children (w : World) : List ProcPtr :=
  (binhashList w.masterChildTable).map (·.value)

/-- How many records of a service are in the table. -/
def totalOf (w : World) (s : ServPtr) : ℕ :=
  w.children.countP fun p => (w.proc p).serv = s

/-- How many of them are available. -/
def availOf (w : World) (s : ServPtr) : ℕ :=
  w.children.countP fun p => (w.proc p).serv = s ∧ (w.proc p).avail = masterStatAvail

/-- The books of the process manager are in order, and `kids` are the pids that `waitpid` has
not returned. -/
structure Account (w : World) (kids : Finset MasterPid) : Prop where
  wf : ∀ t, w.masterChildTable = some t → t.Wf
  key : ∀ e ∈ binhashList w.masterChildTable, e.key = pidKey (w.proc e.value).pid
  nodup : (w.children.map fun p => (w.proc p).pid).Nodup
  kids : ∀ pid, pid ∈ kids ↔ ∃ p ∈ w.children, (w.proc p).pid = pid
  fresh : ∀ p ∈ w.children, p < w.nextProc ∧ (w.proc p).serv < w.nextServ
  avail : ∀ p ∈ w.children,
    (w.proc p).avail = masterStatAvail ∨ (w.proc p).avail = masterStatTaken
  total : ∀ s, (w.serv s).totalProc = w.totalOf s
  availProc : ∀ s, (w.serv s).availProc = w.availOf s

/-- What the books depend on is the same. -/
structure SameBooks (w w' : World) : Prop where
  table : w'.masterChildTable = w.masterChildTable
  proc : w'.proc = w.proc
  nextProc : w'.nextProc = w.nextProc
  nextServ : w'.nextServ = w.nextServ
  serv : ∀ s, (w'.serv s).totalProc = (w.serv s).totalProc ∧
    (w'.serv s).availProc = (w.serv s).availProc ∧ (w'.serv s).maxProc = (w.serv s).maxProc

/-- The books read the table, the records and the two counts. -/
theorem Account.of_eq {w w' : World} {kids : Finset MasterPid} (h : w.Account kids)
    (htable : w'.masterChildTable = w.masterChildTable) (hproc : w'.proc = w.proc)
    (hnextProc : w'.nextProc = w.nextProc) (hnextServ : w'.nextServ = w.nextServ)
    (hserv : ∀ s, (w'.serv s).totalProc = (w.serv s).totalProc ∧
      (w'.serv s).availProc = (w.serv s).availProc) : w'.Account kids := by
  have hchildren : w'.children = w.children := by rw [children, children, htable]
  refine ⟨by simpa only [htable] using h.wf, by simpa only [htable, hproc] using h.key,
    by simpa only [hchildren, hproc] using h.nodup, by simpa only [hchildren, hproc] using h.kids,
    by simpa only [hchildren, hproc, hnextProc, hnextServ] using h.fresh,
    by simpa only [hchildren, hproc] using h.avail, fun s => ?_, fun s => ?_⟩
  · rw [(hserv s).1, h.total s, totalOf, totalOf, hchildren, hproc]
  · rw [(hserv s).2, h.availProc s, availOf, availOf, hchildren, hproc]

theorem Account.of_same {w w' : World} {kids : Finset MasterPid} (h : w.Account kids)
    (hsame : w.SameBooks w') : w'.Account kids :=
  h.of_eq hsame.table hsame.proc hsame.nextProc hsame.nextServ fun s =>
    ⟨(hsame.serv s).1, (hsame.serv s).2.1⟩

theorem SameBooks.trans {w w' w'' : World} (h : w.SameBooks w') (h' : w'.SameBooks w'') :
    w.SameBooks w'' :=
  ⟨h'.table.trans h.table, h'.proc.trans h.proc, h'.nextProc.trans h.nextProc,
    h'.nextServ.trans h.nextServ, fun s => ⟨(h'.serv s).1.trans (h.serv s).1,
      (h'.serv s).2.1.trans (h.serv s).2.1, (h'.serv s).2.2.trans (h.serv s).2.2⟩⟩

/-- A change of one service that leaves its counts alone. -/
theorem SameBooks.of_update {w w' : World} {s : ServPtr} {serv : MasterServ}
    (htable : w'.masterChildTable = w.masterChildTable) (hproc : w'.proc = w.proc)
    (hnextProc : w'.nextProc = w.nextProc) (hnextServ : w'.nextServ = w.nextServ)
    (hserv : w'.serv = Function.update w.serv s serv)
    (heq : serv.totalProc = (w.serv s).totalProc ∧ serv.availProc = (w.serv s).availProc ∧
      serv.maxProc = (w.serv s).maxProc) : w.SameBooks w' := by
  refine ⟨htable, hproc, hnextProc, hnextServ, fun t => ?_⟩
  rcases eq_or_ne t s with rfl | ht
  · rw [hserv, Function.update_self]
    exact heq
  · rw [hserv, Function.update_of_ne ht]
    exact ⟨rfl, rfl, rfl⟩

theorem Rearmed.sameBooks {w w' : World} {s : ServPtr} (h : w.Rearmed w' s) : w.SameBooks w' :=
  .of_update (congrArg World.masterChildTable h.eq :) (congrArg World.proc h.eq :)
    (congrArg World.nextProc h.eq :) (congrArg World.nextServ h.eq :) h.serv ⟨rfl, rfl, rfl⟩

end World

theorem masterThrottle_sameBooks {w w' : World} {s : ServPtr} {now : ℤ}
    (h : masterThrottle w s now = .ok w') : w.SameBooks w' := by
  have heq := masterThrottle_ok h
  exact .of_update (congrArg World.masterChildTable heq :) (congrArg World.proc heq :)
    (congrArg World.nextProc heq :) (congrArg World.nextServ heq :) (congrArg World.serv heq :)
    ⟨rfl, rfl, rfl⟩

theorem masterUnthrottle_sameBooks {w w' : World} {s : ServPtr} {now : ℤ}
    (h : masterUnthrottle w s now = .ok w') : w.SameBooks w' := by
  rcases masterUnthrottle_ok h with ⟨-, hre⟩ | ⟨-, rfl⟩
  · have hrel : w.SameBooks (w.released s now) := .of_update rfl rfl rfl rfl rfl ⟨rfl, rfl, rfl⟩
    exact hrel.trans hre.sameBooks
  · exact ⟨rfl, rfl, rfl, rfl, fun _ => ⟨rfl, rfl, rfl⟩⟩

/-! ## Keys and counts -/

theorem pidKey_injective : Function.Injective pidKey := by
  intro pid pid' h
  simp only [pidKey, List.cons.injEq, and_true] at h
  obtain ⟨h0, h1, h2, h3⟩ := h
  have e0 := congrArg BitVec.toNat h0
  have e1 := congrArg BitVec.toNat h1
  have e2 := congrArg BitVec.toNat h2
  have e3 := congrArg BitVec.toNat h3
  simp only [BitVec.extractLsb'_toNat, Nat.shiftRight_eq_div_pow, Nat.reducePow] at e0 e1 e2 e3
  have hlt := pid.isLt
  have hlt' := pid'.isLt
  refine BitVec.eq_of_toNat_eq ?_
  omega

/-- Two predicates that agree off one element of a list without duplicates count the same but
for it. -/
theorem countP_off {α : Type} [DecidableEq α] {l : List α} (hnd : l.Nodup) {p : α} (hp : p ∈ l)
    (q q' : α → Bool) (h : ∀ x ∈ l, x ≠ p → q' x = q x) :
    l.countP q' + (if q p then 1 else 0) = l.countP q + if q' p then 1 else 0 := by
  have hperm := List.perm_cons_erase hp
  have hrest : (l.erase p).countP q' = (l.erase p).countP q := by
    refine List.countP_congr fun x hx => ?_
    rw [h x (List.mem_of_mem_erase hx) fun he => hnd.not_mem_erase (he ▸ hx)]
  rw [hperm.countP_eq, hperm.countP_eq q, List.countP_cons, List.countP_cons, hrest]
  omega

/-- What is recorded for the elements of a list, where another list has all but one of them with
the same records. -/
theorem map_perm_cons {α β : Type} {l l' : List α} {p : α} {f g : α → β} (hl : l.Perm (p :: l'))
    (h : ∀ x ∈ l', f x = g x) : (l.map f).Perm (f p :: l'.map g) := by
  have hmap := hl.map f
  rwa [List.map_cons, List.map_congr_left h] at hmap

theorem countP_perm_cons {α β : Type} {l l' : List α} {p : α} {f g : α → β}
    (hl : l.Perm (p :: l')) (h : ∀ x ∈ l', f x = g x) (q : β → Bool) :
    (l.countP fun x => q (f x)) = (l'.countP fun x => q (g x)) + if q (f p) then 1 else 0 := by
  have hcount := (map_perm_cons hl h).countP_eq q
  rwa [List.countP_map, List.countP_cons, List.countP_map] at hcount

namespace World

theorem Account.keys_nodup {w : World} {kids : Finset MasterPid} (h : w.Account kids) :
    ((binhashList w.masterChildTable).map (·.key)).Nodup := by
  have hmap : (binhashList w.masterChildTable).map (·.key) =
      (w.children.map fun p => (w.proc p).pid).map pidKey := by
    rw [children, List.map_map, List.map_map]
    exact List.map_congr_left h.key
  rw [hmap]
  exact h.nodup.map pidKey_injective

theorem Account.children_nodup {w : World} {kids : Finset MasterPid} (h : w.Account kids) :
    w.children.Nodup :=
  h.nodup.of_map _

/-- A pid finds the record of that pid. -/
theorem Account.find {w : World} {kids : Finset MasterPid} (h : w.Account kids) {pid : MasterPid}
    {p : ProcPtr} : binhashFind w.masterChildTable (pidKey pid) = some p ↔
      p ∈ w.children ∧ (w.proc p).pid = pid := by
  have hkeys := h.keys_nodup
  have hkey := h.key
  have hwf := h.wf
  unfold children
  cases htable : w.masterChildTable with
  | none => simp [binhashFind, binhashList]
  | some t =>
    rw [htable] at hkeys hkey
    rw [binhashFind_eq_some (hwf t htable) hkeys]
    constructor
    · intro he
      exact ⟨List.mem_map.2 ⟨_, he, rfl⟩, pidKey_injective (hkey _ he).symm⟩
    · rintro ⟨hp, rfl⟩
      obtain ⟨e, he, rfl⟩ := List.mem_map.1 hp
      rw [← hkey e he]
      exact he

/-- Two records in the table with one pid are one. -/
theorem Account.eq_of_pid {w : World} {kids : Finset MasterPid} (h : w.Account kids)
    {p q : ProcPtr} (hp : p ∈ w.children) (hq : q ∈ w.children)
    (he : (w.proc p).pid = (w.proc q).pid) : p = q :=
  List.inj_on_of_nodup_map h.nodup hp hq he

/-! ## Single changes -/

/-- One record of the table gets the availability `v`, and its service's count with it. -/
theorem Account.set_avail {w w' : World} {kids : Finset MasterPid} {p : ProcPtr} {v : BitVec 32}
    (h : w.Account kids) (hp : p ∈ w.children) (hv : v = masterStatAvail ∨ v = masterStatTaken)
    (htable : w'.masterChildTable = w.masterChildTable) (hnextProc : w'.nextProc = w.nextProc)
    (hnextServ : w'.nextServ = w.nextServ) (hpid : ∀ q, (w'.proc q).pid = (w.proc q).pid)
    (hserv : ∀ q, (w'.proc q).serv = (w.proc q).serv) (hself : (w'.proc p).avail = v)
    (hother : ∀ q, q ≠ p → (w'.proc q).avail = (w.proc q).avail)
    (htotal : ∀ t, (w'.serv t).totalProc = (w.serv t).totalProc)
    (havail : ∀ t, (w'.serv t).availProc = (w.serv t).availProc -
      (if (w.proc p).serv = t ∧ (w.proc p).avail = masterStatAvail then 1 else 0) +
      if (w.proc p).serv = t ∧ v = masterStatAvail then 1 else 0) : w'.Account kids := by
  have hchildren : w'.children = w.children := by rw [children, children, htable]
  refine ⟨by simpa only [htable] using h.wf, by simpa only [htable, hpid] using h.key,
    by simpa only [hchildren, hpid] using h.nodup, by simpa only [hchildren, hpid] using h.kids,
    by simpa only [hchildren, hserv, hnextProc, hnextServ] using h.fresh, fun q hq => ?_,
    fun t => ?_, fun t => ?_⟩
  · rw [hchildren] at hq
    rcases eq_or_ne q p with rfl | hne
    · rwa [hself]
    · rw [hother q hne]
      exact h.avail q hq
  · rw [htotal, h.total, totalOf, totalOf, hchildren]
    simp only [hserv]
  · have hcount := countP_off h.children_nodup hp
      (fun q => (w.proc q).serv = t ∧ (w.proc q).avail = masterStatAvail)
      (fun q => (w'.proc q).serv = t ∧ (w'.proc q).avail = masterStatAvail)
      fun x _ hx => by simp only [hserv, hother x hx]
    have hold := h.availProc t
    simp only [hserv, hself, decide_eq_true_eq] at hcount
    rw [availOf] at hold
    rw [havail, availOf, hchildren]
    simp only [hserv]
    split_ifs at hcount ⊢ <;> omega

theorem Account.more {w : World} {kids : Finset MasterPid} {s : ServPtr} {p : ProcPtr}
    (h : w.Account kids) (hp : p ∈ w.children) (hs : (w.proc p).serv = s)
    (hne : (w.proc p).avail ≠ masterStatAvail) : (w.more s p).Account kids := by
  refine h.set_avail hp (Or.inl rfl) rfl rfl rfl (fun q => ?_) (fun q => ?_) ?_ (fun q hq => ?_)
    (fun t => ?_) fun t => ?_
  · rcases eq_or_ne q p with rfl | hq <;> simp [World.more, updProc, updServ, *]
  · rcases eq_or_ne q p with rfl | hq <;> simp [World.more, updProc, updServ, *]
  · simp [World.more, updProc]
  · simp [World.more, updProc, updServ, hq]
  · rcases eq_or_ne t s with rfl | ht <;> simp [World.more, updProc, updServ, *]
  · rcases eq_or_ne t s with rfl | ht
    · simp [World.more, updProc, updServ, hs, hne]
    · simp [World.more, updProc, updServ, ht, hs, ht.symm]

theorem Account.less {w : World} {kids : Finset MasterPid} {s : ServPtr} {p : ProcPtr}
    (h : w.Account kids) (hp : p ∈ w.children) (hs : (w.proc p).serv = s)
    (he : (w.proc p).avail = masterStatAvail) : (w.less s p).Account kids := by
  have hne : masterStatTaken ≠ masterStatAvail := by decide
  refine h.set_avail hp (Or.inr rfl) rfl rfl rfl (fun q => ?_) (fun q => ?_) ?_ (fun q hq => ?_)
    (fun t => ?_) fun t => ?_
  · rcases eq_or_ne q p with rfl | hq <;> simp [World.less, updProc, updServ, *]
  · rcases eq_or_ne q p with rfl | hq <;> simp [World.less, updProc, updServ, *]
  · simp [World.less, updProc]
  · simp [World.less, updProc, updServ, hq]
  · rcases eq_or_ne t s with rfl | ht <;> simp [World.less, updProc, updServ, *]
  · rcases eq_or_ne t s with rfl | ht
    · simp [World.less, updProc, updServ, hs, he, hne]
    · simp [World.less, updProc, updServ, ht, hs, ht.symm]

/-- The use count is not in the books. -/
theorem Account.used {w : World} {kids : Finset MasterPid} {p : ProcPtr} (h : w.Account kids)
    (hp : p ∈ w.children) : (w.updProc p fun proc =>
      { proc with useCount := proc.useCount + 1 }).Account kids := by
  refine h.set_avail hp (h.avail p hp) rfl rfl rfl (fun q => ?_) (fun q => ?_) ?_ (fun q hq => ?_)
    (fun _ => rfl) fun _ => by simp [updProc]
  · rcases eq_or_ne q p with rfl | hq <;> simp [updProc, *]
  · rcases eq_or_ne q p with rfl | hq <;> simp [updProc, *]
  · simp [updProc]
  · simp [updProc, hq]

/-- The table that `master_spawn` finds or creates. -/
theorem Account.exists_table {w : World} {kids : Finset MasterPid} (h : w.Account kids) :
    ∃ t : Binhash ProcPtr, t.Wf ∧ w.masterChildTable.getD (binhashCreate ProcPtr 0) = t ∧
      t.data.flatten = binhashList w.masterChildTable := by
  cases htable : w.masterChildTable with
  | none => exact ⟨_, Binhash.wf_binhashSize _ _, rfl, by simp [binhashList, binhashSize]⟩
  | some t => exact ⟨t, h.wf t htable, rfl, rfl⟩

theorem Account.tabled_list {w : World} {kids : Finset MasterPid} (h : w.Account kids) :
    binhashList w.tabled.masterChildTable = binhashList w.masterChildTable := by
  obtain ⟨t, -, hget, hold⟩ := h.exists_table
  rw [← hold, ← hget]
  rfl

theorem Account.tabled {w : World} {kids : Finset MasterPid} (h : w.Account kids) :
    w.tabled.Account kids := by
  obtain ⟨t, ht, hget, -⟩ := h.exists_table
  have hlist := h.tabled_list
  have hchildren : w.tabled.children = w.children := by rw [children, children, hlist]
  have htotal : ∀ s, w.tabled.totalOf s = w.totalOf s := fun s => by
    rw [totalOf, totalOf, hchildren]
    rfl
  have havail : ∀ s, w.tabled.availOf s = w.availOf s := fun s => by
    rw [availOf, availOf, hchildren]
    rfl
  refine ⟨fun t' ht' => ?_, hlist ▸ h.key, hchildren ▸ h.nodup, fun pid => ?_,
    hchildren ▸ h.fresh, hchildren ▸ h.avail, fun s => (htotal s).symm ▸ h.total s,
    fun s => (havail s).symm ▸ h.availProc s⟩
  · have he : t = t' := hget.symm.trans (Option.some.inj ht')
    exact he ▸ ht
  · rw [h.kids pid, hchildren]
    rfl

/-- A new child is in the table, not available yet. -/
theorem Account.forked {w : World} {kids : Finset MasterPid} {s : ServPtr} {pid : MasterPid}
    (h : w.Account kids) (hpid : pid ∉ kids) (hs : s < w.nextServ) :
    (w.forked s pid).Account (insert pid kids) ∧
      (w.forked s pid).children.Perm (w.nextProc :: w.children) := by
  obtain ⟨t, ht, hget, hold⟩ := h.exists_table
  obtain ⟨hwf, hperm⟩ := binhashEnter_perm ht (pidKey pid) w.nextProc
  rw [hold] at hperm
  have htable : (w.forked s pid).masterChildTable =
      some (binhashEnter t (pidKey pid) w.nextProc) := by rw [← hget]; rfl
  have hlist : (binhashList (w.forked s pid).masterChildTable).Perm
      (⟨pidKey pid, w.nextProc⟩ :: binhashList w.masterChildTable) := by
    rw [htable]
    exact hperm
  have hchildren : (w.forked s pid).children.Perm (w.nextProc :: w.children) := hlist.map _
  have hnew : (w.forked s pid).proc w.nextProc = ⟨pid, 0, s, 0⟩ := by simp [World.forked, updServ]
  have hproc : ∀ q ∈ w.children, (w.forked s pid).proc q = w.proc q := fun q hq => by
    simp [World.forked, updServ, Function.update_of_ne (h.fresh q hq).1.ne]
  have hpids : ((w.forked s pid).children.map fun p => ((w.forked s pid).proc p).pid).Perm
      (pid :: w.children.map fun p => (w.proc p).pid) := by
    have hmap := map_perm_cons (f := fun p => ((w.forked s pid).proc p).pid) hchildren
      fun q hq => congrArg MasterProc.pid (hproc q hq)
    rwa [hnew] at hmap
  have hpidne : ∀ q ∈ w.children, (w.proc q).pid ≠ pid := fun q hq he =>
    hpid ((h.kids pid).2 ⟨q, hq, he⟩)
  have hcount := countP_perm_cons hchildren hproc
  rw [hnew] at hcount
  refine ⟨⟨?_, ?_, ?_, ?_, ?_, ?_, ?_, ?_⟩, hchildren⟩
  · rw [htable]
    intro t' ht'
    exact Option.some.inj ht' ▸ hwf
  · intro e he
    rcases List.mem_cons.1 (hlist.mem_iff.1 he) with rfl | he
    · rw [hnew]
    · rw [hproc _ (List.mem_map_of_mem he), h.key e he]
  · rw [hpids.nodup_iff, List.nodup_cons]
    refine ⟨fun hmem => ?_, h.nodup⟩
    obtain ⟨q, hq, he⟩ := List.mem_map.1 hmem
    exact hpidne q hq he
  · intro pid'
    have hmem : (∃ p ∈ (w.forked s pid).children, ((w.forked s pid).proc p).pid = pid') ↔
        pid' ∈ (w.forked s pid).children.map fun p => ((w.forked s pid).proc p).pid := by
      rw [List.mem_map]
    rw [hmem, hpids.mem_iff, Finset.mem_insert, List.mem_cons, h.kids pid', List.mem_map]
  · intro p hp
    rcases List.mem_cons.1 (hchildren.mem_iff.1 hp) with rfl | hp
    · rw [hnew]
      exact ⟨Nat.lt_succ_self _, hs⟩
    · rw [hproc p hp]
      exact ⟨(h.fresh p hp).1.trans (Nat.lt_succ_self _), (h.fresh p hp).2⟩
  · intro p hp
    rcases List.mem_cons.1 (hchildren.mem_iff.1 hp) with rfl | hp
    · rw [hnew]
      exact Or.inr rfl
    · rw [hproc p hp]
      exact h.avail p hp
  · intro u
    have htotal := hcount fun q => q.serv = u
    have hold := h.total u
    rw [totalOf] at hold ⊢
    rw [htotal]
    rcases eq_or_ne u s with rfl | hu
    · simp [World.forked, hold]
    · simp [World.forked, updServ, hu, hu.symm, hold]
  · intro u
    have havail := hcount fun q => q.serv = u ∧ q.avail = masterStatAvail
    have hold := h.availProc u
    have hne : ¬0#32 = masterStatAvail := by decide
    rw [availOf] at hold ⊢
    rw [havail]
    rcases eq_or_ne u s with rfl | hu
    · simp [World.forked, hold, hne]
    · simp [World.forked, updServ, hu, hold, hne]

/-- A record in the table can be deleted from it, and then its entry is off the list. -/
theorem Account.exists_delete {w : World} {kids : Finset MasterPid} {p : ProcPtr}
    (h : w.Account kids) (hp : p ∈ w.children) :
    ∃ table, binhashDelete w.masterChildTable (pidKey (w.proc p).pid) = .ok table ∧
      (∀ t, table = some t → t.Wf) ∧ ∃ e, e.value = p ∧
        (binhashList w.masterChildTable).Perm (e :: binhashList table) := by
  obtain ⟨e, he, rfl⟩ := List.mem_map.1 hp
  have hkeys := h.keys_nodup
  rw [← h.key e he]
  cases ht : w.masterChildTable with
  | none => simp [ht, binhashList] at he
  | some t =>
    rw [ht] at he hkeys
    obtain ⟨t', hdel, hwf, hperm⟩ := binhashDelete_perm (h.wf t ht) hkeys he
    exact ⟨_, hdel, fun t'' ht'' => Option.some.inj ht'' ▸ hwf, e, rfl, hperm⟩

/-- A record is off its service's counts, and still in the table. -/
structure Uncounted (w v : World) (p : ProcPtr) : Prop where
  table : v.masterChildTable = w.masterChildTable
  nextProc : v.nextProc = w.nextProc
  nextServ : v.nextServ = w.nextServ
  pid : (v.proc p).pid = (w.proc p).pid
  owner : (v.proc p).serv = (w.proc p).serv
  other : ∀ q, q ≠ p → v.proc q = w.proc q
  total : ∀ t, (v.serv t).totalProc = (w.serv t).totalProc -
    if (w.proc p).serv = t then 1 else 0
  avail : ∀ t, (v.serv t).availProc = (w.serv t).availProc -
    if (w.proc p).serv = t ∧ (w.proc p).avail = masterStatAvail then 1 else 0
  max : ∀ t, (v.serv t).maxProc = (w.serv t).maxProc

theorem Uncounted.of_same {w u v : World} {p : ProcPtr} (h : w.Uncounted u p)
    (hsame : u.SameBooks v) : w.Uncounted v p where
  table := hsame.table.trans h.table
  nextProc := hsame.nextProc.trans h.nextProc
  nextServ := hsame.nextServ.trans h.nextServ
  pid := by rw [hsame.proc, h.pid]
  owner := by rw [hsame.proc, h.owner]
  other q hq := by rw [hsame.proc, h.other q hq]
  total t := (hsame.serv t).1.trans (h.total t)
  avail t := (hsame.serv t).2.1.trans (h.avail t)
  max t := (hsame.serv t).2.2.trans (h.max t)

theorem uncounted_dropped {w : World} {p : ProcPtr} (h : (w.proc p).avail ≠ masterStatAvail) :
    w.Uncounted (w.dropped (w.proc p).serv) p := by
  refine ⟨rfl, rfl, rfl, rfl, rfl, fun _ _ => rfl, fun t => ?_, fun t => ?_, fun t => ?_⟩ <;>
    rcases eq_or_ne t (w.proc p).serv with rfl | ht
  · simp [World.dropped]
  · simp [World.dropped, updServ_of_ne ht, ht.symm]
  · simp [World.dropped, h]
  · simp [World.dropped, updServ_of_ne ht, ht.symm]
  · simp [World.dropped]
  · simp [World.dropped, updServ_of_ne ht]

theorem uncounted_less {w : World} {p : ProcPtr} (h : (w.proc p).avail = masterStatAvail) :
    w.Uncounted ((w.dropped (w.proc p).serv).less (w.proc p).serv p) p := by
  refine ⟨rfl, rfl, rfl, by simp [World.less, World.dropped, updProc, updServ],
    by simp [World.less, World.dropped, updProc, updServ],
    fun q hq => by simp [World.less, World.dropped, updProc, updServ, hq],
    fun t => ?_, fun t => ?_, fun t => ?_⟩ <;>
    rcases eq_or_ne t (w.proc p).serv with rfl | ht
  · simp [World.less, World.dropped, updProc, updServ]
  · simp [World.less, World.dropped, updProc, updServ, ht, ht.symm]
  · simp [World.less, World.dropped, updProc, updServ, h]
  · simp [World.less, World.dropped, updProc, updServ, ht, ht.symm]
  · simp [World.less, World.dropped, updProc, updServ]
  · simp [World.less, World.dropped, updProc, updServ, ht]

/-- A record leaves the table, and its service's counts. -/
theorem Account.shrink {w w' : World} {kids : Finset MasterPid} {e : BinhashInfo ProcPtr}
    (h : w.Account kids) (hwf : ∀ t, w'.masterChildTable = some t → t.Wf)
    (hlist : (binhashList w.masterChildTable).Perm (e :: binhashList w'.masterChildTable))
    (hnextProc : w'.nextProc = w.nextProc) (hnextServ : w'.nextServ = w.nextServ)
    (hproc : ∀ q, q ≠ e.value → w'.proc q = w.proc q)
    (htotal : ∀ t, (w'.serv t).totalProc = (w.serv t).totalProc -
      if (w.proc e.value).serv = t then 1 else 0)
    (havail : ∀ t, (w'.serv t).availProc = (w.serv t).availProc -
      if (w.proc e.value).serv = t ∧ (w.proc e.value).avail = masterStatAvail then 1 else 0) :
    w'.Account (kids.erase (w.proc e.value).pid) := by
  have hchildren : w.children.Perm (e.value :: w'.children) := hlist.map _
  have hnd := hchildren.nodup_iff.1 h.children_nodup
  have hsame : ∀ q ∈ w'.children, w.proc q = w'.proc q := fun q hq =>
    (hproc q fun he => (List.nodup_cons.1 hnd).1 (he ▸ hq)).symm
  have hsub : ∀ q ∈ w'.children, q ∈ w.children := fun q hq =>
    hchildren.mem_iff.2 (List.mem_cons_of_mem _ hq)
  have hpids : (w.children.map fun p => (w.proc p).pid).Perm
      ((w.proc e.value).pid :: w'.children.map fun p => (w'.proc p).pid) :=
    map_perm_cons hchildren fun q hq => congrArg MasterProc.pid (hsame q hq)
  have hpidnd := hpids.nodup_iff.1 h.nodup
  have hcount := countP_perm_cons hchildren hsame
  refine ⟨hwf, ?_, (List.nodup_cons.1 hpidnd).2, ?_, ?_, ?_, ?_, ?_⟩
  · intro x hx
    rw [← hsame _ (List.mem_map_of_mem hx)]
    exact h.key x (hlist.mem_iff.2 (List.mem_cons_of_mem _ hx))
  · intro pid
    have hiff := hpids.mem_iff (a := pid)
    rw [List.mem_cons, List.mem_map, List.mem_map] at hiff
    rw [Finset.mem_erase, h.kids pid, hiff]
    constructor
    · rintro ⟨hne, rfl | hex⟩
      · exact (hne rfl).elim
      · exact hex
    · rintro ⟨q, hq, rfl⟩
      refine ⟨fun heq => (List.nodup_cons.1 hpidnd).1 ?_, Or.inr ⟨q, hq, rfl⟩⟩
      exact List.mem_map.2 ⟨q, hq, heq⟩
  · intro q hq
    rw [← hsame q hq, hnextProc, hnextServ]
    exact h.fresh q (hsub q hq)
  · intro q hq
    rw [← hsame q hq]
    exact h.avail q (hsub q hq)
  · intro u
    have hc := hcount fun q => q.serv = u
    have hold := h.total u
    simp only [decide_eq_true_eq] at hc
    rw [totalOf, hc] at hold
    rw [htotal, hold, totalOf]
    push_cast
    omega
  · intro u
    have hc := hcount fun q => q.serv = u ∧ q.avail = masterStatAvail
    have hold := h.availProc u
    simp only [decide_eq_true_eq] at hc
    rw [availOf, hc] at hold
    rw [havail, hold, availOf]
    push_cast
    omega

/-- A record off the counts leaves the table. -/
theorem Account.delete {w v : World} {kids : Finset MasterPid} {p : ProcPtr}
    {table : Option (Binhash ProcPtr)} (h : w.Account kids) (hp : p ∈ w.children)
    (htable : binhashDelete w.masterChildTable (pidKey (w.proc p).pid) = .ok table)
    (hv : w.Uncounted v p) :
    World.Account { v with masterChildTable := table } (kids.erase (w.proc p).pid) ∧
      w.children.Perm (p :: (binhashList table).map (·.value)) := by
  obtain ⟨table', hdel, hwf, e, rfl, hlist⟩ := h.exists_delete hp
  obtain rfl := Except.ok.inj (hdel.symm.trans htable)
  exact ⟨h.shrink hwf hlist hv.nextProc hv.nextServ hv.other hv.total hv.avail, hlist.map _⟩

/-- No service has more children than its limit. -/
def Limited (w : World) : Prop :=
  ∀ s, (w.serv s).maxProc = 0 ∨ (w.serv s).totalProc ≤ (w.serv s).maxProc

theorem SameBooks.limited {w w' : World} (h : w.SameBooks w') (hl : w.Limited) : w'.Limited := by
  intro s
  obtain ⟨htotal, -, hmax⟩ := h.serv s
  rw [htotal, hmax]
  exact hl s

theorem limited_more {w : World} {s : ServPtr} {p : ProcPtr} (h : w.Limited) :
    (w.more s p).Limited := by
  intro t
  have ht := h t
  rcases eq_or_ne t s with rfl | hne
  · simpa [World.more, updProc, updServ] using ht
  · simpa [World.more, updProc, updServ, hne] using ht

theorem limited_less {w : World} {s : ServPtr} {p : ProcPtr} (h : w.Limited) :
    (w.less s p).Limited := by
  intro t
  have ht := h t
  rcases eq_or_ne t s with rfl | hne
  · simpa [World.less, updProc, updServ] using ht
  · simpa [World.less, updProc, updServ, hne] using ht

end World

open World

/-! ## Calls that keep the books -/

/-- The panics about the books of the process manager. -/
def Panic.OfBooks : Panic → Prop
  | .processAlreadyAvailable | .processNotAvailable | .unknownPid _ | .unknownKey _ => True
  | _ => False

/-- A call returns with `P`, or it panics about something else than the books. -/
structure BooksOk {α : Type} (P : α → Prop) (x : Except Panic α) : Prop where
  ok : ∀ a, x = .ok a → P a
  error : ∀ e, x = .error e → ¬e.OfBooks

namespace BooksOk

variable {α β : Type} {P : α → Prop} {Q : β → Prop}

theorem pure {a : α} (h : P a) : BooksOk P (.ok a) :=
  ⟨fun _ he => Except.ok.inj he ▸ h, nofun⟩

theorem throw {e : Panic} (h : ¬e.OfBooks) : BooksOk P (.error e) :=
  ⟨nofun, fun _ he => Except.error.inj he ▸ h⟩

theorem mono {P' : α → Prop} {x : Except Panic α} (h : BooksOk P x) (hP : ∀ a, P a → P' a) :
    BooksOk P' x :=
  ⟨fun a ha => hP a (h.ok a ha), h.error⟩

theorem bind {x : Except Panic α} {f : α → Except Panic β} (h : BooksOk P x)
    (hf : ∀ a, P a → BooksOk Q (f a)) : BooksOk Q (x >>= f) := by
  cases x with
  | error e => exact .throw (h.error e rfl)
  | ok a => exact hf a (h.ok a rfl)

end BooksOk

theorem masterAvailListen_books (w : World) (s : ServPtr) :
    BooksOk (fun w' => w.Rearmed w' s) (masterAvailListen w s) := by
  rcases masterAvailListen_spec w s with ⟨-, herr⟩ | ⟨w', hok, hre⟩
  · rw [herr]
    exact .throw id
  · rw [hok]
    exact .pure hre

theorem masterAvailMore_books {w : World} {s : ServPtr} {p : ProcPtr}
    (h : (w.proc p).avail ≠ masterStatAvail) :
    BooksOk (fun w' => (w.more s p).Rearmed w' s) (masterAvailMore w s p) := by
  unfold masterAvailMore
  rw [if_neg h]
  exact masterAvailListen_books _ s

theorem masterAvailLess_books {w : World} {s : ServPtr} {p : ProcPtr}
    (h : (w.proc p).avail = masterStatAvail) :
    BooksOk (fun w' => (w.less s p).Rearmed w' s) (masterAvailLess w s p) := by
  unfold masterAvailLess
  rw [if_neg (not_not.2 h)]
  exact masterAvailListen_books _ s

theorem masterThrottle_books (w : World) (s : ServPtr) (now : ℤ) :
    BooksOk (fun w' => w.SameBooks w') (masterThrottle w s now) := by
  refine ⟨fun _ => masterThrottle_sameBooks, fun e he => ?_⟩
  obtain ⟨delay, rfl⟩ := masterThrottle_error he
  exact id

theorem masterUnthrottle_books (w : World) (s : ServPtr) (now : ℤ) :
    BooksOk (fun w' => w.SameBooks w') (masterUnthrottle w s now) := by
  refine ⟨fun _ => masterUnthrottle_sameBooks, ?_⟩
  unfold masterUnthrottle
  split
  · exact (masterAvailListen_books _ s).error
  · exact nofun

/-- The children after a call of `master_spawn` : a pid that `fork` returned is new. -/
def kidsAfter (kids : Finset MasterPid) : Option MasterPid → Finset MasterPid
  | none => kids
  | some pid => insert pid kids

/-- A spawn keeps the books and the limits. -/
theorem masterSpawn_books {w : World} {kids : Finset MasterPid} {s : ServPtr}
    {fork : Option MasterPid} {now : ℤ} (h : w.Account kids) (hs : s < w.nextServ)
    (hfork : ∀ pid, fork = some pid → pid ∉ kids) :
    BooksOk (fun w' => w'.Account (kidsAfter kids fork) ∧ (w.Limited → w'.Limited))
      (masterSpawn w s fork now) := by
  simp only [masterSpawn]
  split
  · exact .throw id
  rename_i hlimit
  split
  · exact .throw id
  split
  · exact .throw id
  cases fork with
  | none =>
    exact (masterThrottle_books w.tabled s now).mono fun w' hsame =>
      ⟨h.tabled.of_same hsame, fun hl => hsame.limited hl⟩
  | some pid =>
    obtain ⟨hacc, hchildren⟩ := h.forked (hfork pid rfl) hs
    have hnew : (w.forked s pid).proc w.nextProc = ⟨pid, 0, s, 0⟩ := by
      simp [World.forked, updServ]
    have hmem : w.nextProc ∈ (w.forked s pid).children := hchildren.mem_iff.2 (by simp)
    have hne : ((w.forked s pid).proc w.nextProc).avail ≠ masterStatAvail := by
      rw [hnew]
      exact (by decide : (0 : BitVec 32) ≠ masterStatAvail)
    refine (masterAvailMore_books hne).bind fun v hre => .pure ?_
    have hmore := hacc.more hmem (by rw [hnew]) hne
    have hcond : v.SameBooks (v.updServ s fun serv => { serv with
        flags := { serv.flags with condwake := false } }) :=
      .of_update rfl rfl rfl rfl rfl ⟨rfl, rfl, rfl⟩
    refine ⟨(hmore.of_same hre.sameBooks).of_same hcond, fun hl => ?_⟩
    refine hcond.limited (hre.sameBooks.limited fun t => ?_)
    rcases eq_or_ne t s with rfl | ht
    · have hok : masterLimitOk (w.serv t).maxProc (w.serv t).totalProc = true := by
        simpa using hlimit
      simp only [masterLimitOk, decide_eq_true_eq] at hok
      simp only [World.more, World.forked, updProc, updServ, Function.update_self]
      omega
    · simpa [World.more, World.forked, updProc, updServ, ht] using hl t

/-- A deletion of a record in the table takes its pid off the books. -/
theorem masterDeleteChild_books {w : World} {kids : Finset MasterPid} {p : ProcPtr}
    (h : w.Account kids) (hp : p ∈ w.children) :
    BooksOk (fun w' => w'.Account (kids.erase (w.proc p).pid) ∧ (w.Limited → w'.Limited) ∧
      w'.nextServ = w.nextServ) (masterDeleteChild w p) := by
  -- the record leaves the books in each branch before it leaves the table
  have hun : BooksOk (fun v => w.Uncounted v p)
      (if ((w.dropped (w.proc p).serv).proc p).avail = masterStatAvail then
        masterAvailLess (w.dropped (w.proc p).serv) (w.proc p).serv p
      else if masterLimitOk ((w.dropped (w.proc p).serv).serv (w.proc p).serv).maxProc
          ((w.dropped (w.proc p).serv).serv (w.proc p).serv).totalProc ∧
          ((w.dropped (w.proc p).serv).serv (w.proc p).serv).availProc < 1 then
        masterAvailListen (w.dropped (w.proc p).serv) (w.proc p).serv
      else pure (w.dropped (w.proc p).serv)) := by
    split
    · rename_i hav
      exact (masterAvailLess_books hav).mono fun v hre =>
        (uncounted_less (w := w) hav).of_same hre.sameBooks
    rename_i hne
    split
    · exact (masterAvailListen_books _ _).mono fun v hre =>
        (uncounted_dropped (w := w) hne).of_same hre.sameBooks
    · exact .pure (uncounted_dropped hne)
  refine hun.bind fun v hv => ?_
  obtain ⟨table, hdel, -⟩ := h.exists_delete hp
  have hdel' : binhashDelete v.masterChildTable (pidKey (v.proc p).pid) = .ok table := by
    rw [hv.table, hv.pid, hdel]
  rw [hdel']
  have hacc := h.delete hp hdel hv
  exact .pure ⟨hacc.1, fun hl t => by
    have hold := hl t
    have htotal := hv.total t
    simp only [hv.max]
    split at htotal <;> omega, hv.nextServ⟩

/-- The pid that `waitpid` returned leaves the books. -/
theorem masterReap_books {w : World} {kids : Finset MasterPid} {dead : Waited}
    (h : w.Account kids) (hdead : dead.pid ∈ kids) :
    BooksOk (fun w' => w'.Account (kids.erase dead.pid) ∧ (w.Limited → w'.Limited) ∧
      w'.nextServ = w.nextServ) (masterReap w dead) := by
  obtain ⟨p, hp, hpid⟩ := (h.kids dead.pid).1 hdead
  simp only [masterReap]
  rw [h.find.2 ⟨hp, hpid⟩]
  have hthr : BooksOk (fun v => w.SameBooks v)
      (if dead.status ≠ 0 ∧ (w.proc p).useCount = 0 ∧ ¬(w.serv (w.proc p).serv).flags.throttle then
        masterThrottle w (w.proc p).serv dead.now
      else pure w) := by
    split
    · exact masterThrottle_books w _ _
    · exact .pure ⟨rfl, rfl, rfl, rfl, fun _ => ⟨rfl, rfl, rfl⟩⟩
  refine hthr.bind fun v hsame => ?_
  have hp' : p ∈ v.children := by rwa [children, hsame.table]
  refine (masterDeleteChild_books (h.of_same hsame) hp').mono fun w' hw' => ?_
  rw [hsame.proc, hpid] at hw'
  exact ⟨hw'.1, fun hl => hw'.2.1 (hsame.limited hl), hw'.2.2.trans hsame.nextServ⟩

/-- The children left when `waitpid` has returned some. -/
def kidsLeft (kids : Finset MasterPid) (dead : List Waited) : Finset MasterPid :=
  dead.foldl (fun kids d => kids.erase d.pid) kids

/-- `waitpid` returns children, each once. -/
def WaitOk (kids : Finset MasterPid) (dead : List Waited) : Prop :=
  (∀ d ∈ dead, d.pid ∈ kids) ∧ (dead.map (·.pid)).Nodup

theorem WaitOk.cons {kids : Finset MasterPid} {d : Waited} {dead : List Waited}
    (h : WaitOk kids (d :: dead)) : d.pid ∈ kids ∧ WaitOk (kids.erase d.pid) dead := by
  obtain ⟨hmem, hnd⟩ := h
  rw [List.map_cons, List.nodup_cons] at hnd
  refine ⟨hmem d (by simp), fun d' hd' => Finset.mem_erase.2 ⟨fun he => hnd.1 ?_,
    hmem d' (by simp [hd'])⟩, hnd.2⟩
  exact List.mem_map.2 ⟨d', hd', he⟩

theorem masterReapChild_books {dead : List Waited} : ∀ {w : World} {kids : Finset MasterPid},
    w.Account kids → WaitOk kids dead →
    BooksOk (fun w' => w'.Account (kidsLeft kids dead) ∧ (w.Limited → w'.Limited) ∧
      w'.nextServ = w.nextServ) (masterReapChild w dead) := by
  induction dead with
  | nil => exact fun h _ => .pure ⟨h, id, rfl⟩
  | cons d dead ih =>
    intro w kids h hwait
    obtain ⟨hmem, hwait'⟩ := hwait.cons
    refine (masterReap_books h hmem).bind fun v ⟨hv, hlim, hnext⟩ => ?_
    exact (ih hv hwait').mono fun w' hw' =>
      ⟨hw'.1, fun hl => hw'.2.1 (hlim hl), hw'.2.2.trans hnext⟩

/-- A status message keeps the books, whatever it says. -/
theorem masterStatusEvent_books {w : World} {kids : Finset MasterPid} {event : ℤ} {s : ServPtr}
    {read : StatusRead} (h : w.Account kids) :
    BooksOk (fun w' => w'.Account kids ∧ (w.Limited → w'.Limited))
      (masterStatusEvent w event s read) := by
  unfold masterStatusEvent
  split
  · exact .pure ⟨h, id⟩
  cases read with
  | error => exact .pure ⟨h, id⟩
  | eof => exact .throw id
  | short n => exact .pure ⟨h, id⟩
  | stat stat =>
    simp only
    split
    · exact .pure ⟨h, id⟩
    rename_i p hfind
    obtain ⟨hp, -⟩ := h.find.1 hfind
    split
    · exact .throw id
    rename_i hserv
    have hs : (w.proc p).serv = s := not_not.1 hserv
    split
    · exact .pure ⟨h, id⟩
    rename_i hne
    split
    · rename_i hst
      rw [hst] at hne
      have hne' : ((w.updProc p fun proc =>
          { proc with useCount := proc.useCount + 1 }).proc p).avail ≠ masterStatAvail := by
        simpa [updProc] using hne
      refine (masterAvailMore_books hne').mono fun w' hre => ?_
      have hmore := (h.used hp).more hp (s := s) (by simpa [updProc] using hs) hne'
      exact ⟨hmore.of_same hre.sameBooks, fun hl => hre.sameBooks.limited (limited_more hl)⟩
    split
    · rename_i hst
      rw [hst] at hne
      have hav : (w.proc p).avail = masterStatAvail := (h.avail p hp).resolve_right hne
      refine (masterAvailLess_books hav).mono fun w' hre => ?_
      exact ⟨(h.less hp hs hav).of_same hre.sameBooks,
        fun hl => hre.sameBooks.limited (limited_less hl)⟩
    · exact .pure ⟨h, id⟩

/-- What `fork` returns in a connection event, which gets to it unless the service is
throttled. -/
def availEventFork (serv : MasterServ) (event : ℤ) (fork : Option MasterPid) :
    Option MasterPid :=
  if event = 0 ∨ serv.flags.throttle then none else fork

theorem masterAvailEvent_books {w : World} {kids : Finset MasterPid} {event : ℤ} {s : ServPtr}
    {fork : Option MasterPid} {now : ℤ} (h : w.Account kids) (hs : s < w.nextServ)
    (hfork : ∀ pid, availEventFork (w.serv s) event fork = some pid → pid ∉ kids) :
    BooksOk (fun w' => w'.Account (kidsAfter kids (availEventFork (w.serv s) event fork)) ∧
      (w.Limited → w'.Limited)) (masterAvailEvent w event s fork now) := by
  unfold masterAvailEvent
  by_cases hev : event = 0
  · rw [if_pos hev, availEventFork, if_pos (Or.inl hev)]
    exact .pure ⟨h, id⟩
  by_cases hthr : (w.serv s).flags.throttle = true
  · rw [if_neg hev, if_pos hthr, availEventFork, if_pos (Or.inr hthr)]
    rcases eventDisableRw_spec w.masterEl (w.serv s).listenFd eventRead with
      ⟨-, herr⟩ | ⟨r, el, -, hok, -⟩
    · rw [herr]
      exact .throw id
    · rw [hok]
      have hsame : w.SameBooks { w with masterEl := el } :=
        ⟨rfl, rfl, rfl, rfl, fun _ => ⟨rfl, rfl, rfl⟩⟩
      exact .pure ⟨h.of_same hsame, hsame.limited⟩
  · have hforked : availEventFork (w.serv s) event fork = fork := if_neg (not_or.2 ⟨hev, hthr⟩)
    rw [hforked] at hfork
    rw [if_neg hev, if_neg hthr, hforked]
    exact masterSpawn_books h hs hfork

theorem masterTimer_books (w : World) (now : ℤ) :
    BooksOk (fun w' => w.SameBooks w') (masterTimer w now) := by
  unfold masterTimer
  split
  · exact .pure ⟨rfl, rfl, rfl, rfl, fun _ => ⟨rfl, rfl, rfl⟩⟩
  split
  · exact (masterUnthrottle_books _ _ _).mono fun w' hsame =>
      ⟨hsame.table, hsame.proc, hsame.nextProc, hsame.nextServ, hsame.serv⟩
  · exact .pure ⟨rfl, rfl, rfl, rfl, fun _ => ⟨rfl, rfl, rfl⟩⟩

theorem masterStatusInit_books (w : World) (s : ServPtr) (fds : ℤ × ℤ) :
    BooksOk (fun _ => True) (masterStatusInit w s fds) := by
  refine ⟨fun _ _ => trivial, fun e he => ?_⟩
  unfold masterStatusInit at he
  split at he
  · exact Except.error.inj he ▸ id
  rcases bind_error_iff.1 he with he | ⟨r, -, he⟩
  · rcases eventEnableRw_spec (w.updServ s fun serv => { serv with statusFd := fds }).masterEl
      fds.1 .masterStatusEvent s eventRead with ⟨-, herr⟩ | ⟨r, el, -, hok, -⟩
    · exact Except.error.inj (herr.symm.trans he) ▸ id
    · cases hok.symm.trans he
  · cases he

/-- A start panics about descriptors only. -/
theorem masterConfigNew_books (w : World) (ent : MasterEnt) (fds : ServFds) :
    BooksOk (fun _ => True) (masterConfigNew w ent fds) :=
  (masterAvailListen_books _ _).bind fun _ _ => masterStatusInit_books _ _ _

theorem clocked_sameBooks (w : World) (now : ℤ) : w.SameBooks (w.clocked now) :=
  ⟨rfl, rfl, rfl, rfl, fun _ => ⟨rfl, rfl, rfl⟩⟩

/-- A new service has no children and none is counted. -/
theorem World.Account.started {w w' : World} {kids : Finset MasterPid} {ent : MasterEnt}
    {fds : ServFds} (h : w.Account kids) (hst : w.Started w' ent fds) : w'.Account kids := by
  have htable : w'.masterChildTable = w.masterChildTable :=
    (congrArg World.masterChildTable hst.eq :)
  have hproc : w'.proc = w.proc := (congrArg World.proc hst.eq :)
  have hnextProc : w'.nextProc = w.nextProc := (congrArg World.nextProc hst.eq :)
  have hchildren : w'.children = w.children := by rw [children, children, htable]
  have hnone : ∀ q : MasterProc → Bool, w.children.countP
      (fun p => (w.proc p).serv = w.nextServ ∧ q (w.proc p)) = 0 := by
    intro q
    rw [List.countP_eq_zero]
    intro p hp
    have hlt := (h.fresh p hp).2
    simp only [decide_eq_true_eq, not_and]
    exact fun he => (hlt.ne he).elim
  refine ⟨by simpa only [htable] using h.wf, by simpa only [htable, hproc] using h.key,
    by simpa only [hchildren, hproc] using h.nodup, by simpa only [hchildren, hproc] using h.kids,
    fun p hp => ?_, by simpa only [hchildren, hproc] using h.avail, fun s => ?_, fun s => ?_⟩
  · rw [hchildren] at hp
    rw [hproc, hnextProc, hst.nextServ]
    exact ⟨(h.fresh p hp).1, (h.fresh p hp).2.trans (Nat.lt_succ_self _)⟩
  · rw [totalOf, hchildren, hproc]
    rcases eq_or_ne s w.nextServ with rfl | hs
    · rw [hst.serv_self]
      have hzero := hnone fun _ => true
      simp only [and_true] at hzero
      rw [hzero]
      rfl
    · rw [hst.serv_of_ne hs]
      exact h.total s
  · rw [availOf, hchildren, hproc]
    rcases eq_or_ne s w.nextServ with rfl | hs
    · rw [hst.serv_self]
      have hzero := hnone fun proc => proc.avail = masterStatAvail
      simp only [decide_eq_true_eq] at hzero
      rw [hzero]
      rfl
    · rw [hst.serv_of_ne hs]
      exact h.availProc s

/-! ## Runs -/

/-- The master, and the pids of its children that `waitpid` has not returned. -/
structure Family where
  world : World
  kids : Finset MasterPid

/-- What `fork` returns in a call, if the call gets to it. -/
def MasterOp.forked (w : World) : MasterOp → Option MasterPid
  | .spawn _ fork _ => fork
  | .availEvent s fork _ => availEventFork (w.serv s) (w.serv s).listenFd fork
  | _ => none

/-- The children that `waitpid` returns in a call. -/
def MasterOp.reaped : MasterOp → List Waited
  | .reapChild dead => dead
  | _ => []

/-- The kernel gives a new child a pid it does not keep for another one, and returns children it
keeps. -/
def MasterOp.KernelOk (m : Family) (op : MasterOp) : Prop :=
  (∀ pid, op.forked m.world = some pid → pid ∉ m.kids) ∧ WaitOk m.kids op.reaped

/-- In a call that neither forks nor reaps the kernel does nothing wrong. -/
theorem MasterOp.kernelOk_of_quiet {m : Family} {op : MasterOp} (hforked : op.forked m.world = none)
    (hreaped : op.reaped = []) : op.KernelOk m := by
  refine ⟨fun pid hpid => ?_, ?_⟩
  · cases hforked.symm.trans hpid
  · rw [hreaped]
    exact ⟨by simp, List.nodup_nil⟩

/-- The master with its children, from its start, without a configuration reload. -/
def familySystem : LTS Family MasterOp where
  init m := m = ⟨masterInit, ∅⟩
  step m op m' := op.Allowed m.world ∧ op.KernelOk m ∧ masterExec m.world op = .ok m'.world ∧
    m'.kids = kidsLeft (kidsAfter m.kids (op.forked m.world)) op.reaped

/-- The books are in order, within the limits, and for services that exist. -/
structure Family.Books (m : Family) : Prop where
  account : m.world.Account m.kids
  limited : m.world.Limited
  head : ∀ s ∈ m.world.masterHead, s < m.world.nextServ

theorem family_books_init : Family.Books ⟨masterInit, ∅⟩ where
  account := by
    refine ⟨nofun, by simp [masterInit, binhashList], ?_, ?_, ?_, ?_, fun s => ?_, fun s => ?_⟩
    all_goals simp [children, masterInit, binhashList, totalOf, availOf, masterServNone]
  limited _ := Or.inl rfl
  head := by simp [masterInit]

/-- A call keeps the books, or it panics about something else. -/
theorem masterExec_books {m : Family} {op : MasterOp} (hacc : m.world.Account m.kids)
    (hhead : ∀ s ∈ m.world.masterHead, s < m.world.nextServ) (hallow : op.Allowed m.world)
    (hker : op.KernelOk m) :
    BooksOk (fun w' => w'.Account (kidsLeft (kidsAfter m.kids (op.forked m.world)) op.reaped) ∧
      (m.world.Limited → w'.Limited)) (masterExec m.world op) := by
  obtain ⟨hfork, hwait⟩ := hker
  cases op with
  | start ent fds =>
    refine ⟨fun w' hw' => ?_, (masterConfigNew_books _ ent fds).error⟩
    have hst := masterConfigNew_ok hw' hallow.read.2.2
    refine ⟨hacc.started hst, fun hl s => ?_⟩
    rcases eq_or_ne s m.world.nextServ with rfl | hs
    · rw [hst.serv_self]
      exact Or.inr ent.maxProc_nonneg
    · rw [hst.serv_of_ne hs]
      exact hl s
  | spawn s fork now => exact masterSpawn_books hacc (hhead s hallow) hfork
  | throttle s now =>
    exact (masterThrottle_books _ s now).mono fun _ hsame => ⟨hacc.of_same hsame, hsame.limited⟩
  | unthrottle s now =>
    exact (masterUnthrottle_books _ s now).mono fun _ hsame => ⟨hacc.of_same hsame, hsame.limited⟩
  | availEvent s fork now => exact masterAvailEvent_books hacc (hhead s hallow.1) hfork
  | statusEvent s read => exact masterStatusEvent_books hacc
  | reapChild dead =>
    exact (masterReapChild_books hacc hwait).mono fun _ hw' => ⟨hw'.1, hw'.2.1⟩
  | timer now =>
    exact (masterTimer_books (m.world.clocked now) now).mono fun _ hsame =>
      ⟨(hacc.of_same (clocked_sameBooks _ now)).of_same hsame, hsame.limited⟩

/-- The books are kept by what keeps the accounts and starts no service. -/
theorem Family.Books.of_keeps {m m' : Family} (h : m.Books) (hacc : m'.world.Account m'.kids)
    (hlim : m.world.Limited → m'.world.Limited) (hkeeps : m.world.Keeps m'.world) : m'.Books where
  account := hacc
  limited := hlim h.limited
  head := by
    rw [hkeeps.head, hkeeps.nextServ]
    exact h.head

theorem Family.Books.step {m m' : Family} {op : MasterOp} (h : m.Books)
    (hst : familySystem.step m op m') : m'.Books := by
  obtain ⟨hallow, hker, hexec, hkids⟩ := hst
  obtain ⟨hacc, hlim⟩ := (masterExec_books h.account h.head hallow hker).ok _ hexec
  by_cases hstart : ∃ ent fds, op = .start ent fds
  · obtain ⟨ent, fds, rfl⟩ := hstart
    have hst := masterConfigNew_ok hexec hallow.read.2.2
    refine ⟨hkids ▸ hacc, hlim h.limited, fun s hs => ?_⟩
    rw [hst.head] at hs
    rw [hst.nextServ]
    rcases List.mem_cons.1 hs with rfl | hs
    · exact Nat.lt_succ_self _
    · exact (h.head s hs).trans (Nat.lt_succ_self _)
  · have hkeeps := masterExec_keeps hexec fun ent fds he => hstart ⟨ent, fds, he⟩
    exact h.of_keeps (hkids ▸ hacc) hlim hkeeps

theorem Family.books_of_reach {m : Family} (h : familySystem.Reach m) : m.Books :=
  h.invariant (by rintro _ rfl; exact family_books_init) fun _ _ _ h hst => h.step hst

/-- Process accounting is exact in every state the master reaches, and the panics about the
books are out of reach. -/
theorem accounting_exact {m : Family} (h : familySystem.Reach m) :
    (∀ s, (m.world.serv s).totalProc = m.world.totalOf s ∧
      (m.world.serv s).availProc = m.world.availOf s ∧
      ((m.world.serv s).maxProc = 0 ∨ (m.world.serv s).totalProc ≤ (m.world.serv s).maxProc)) ∧
    (∀ p ∈ m.world.children, (m.world.proc p).avail = masterStatAvail ∨
      (m.world.proc p).avail = masterStatTaken) ∧
    ((binhashList m.world.masterChildTable).map (·.key)).Nodup ∧
    ∀ op e, op.Allowed m.world → op.KernelOk m → masterExec m.world op = .error e →
      ¬e.OfBooks := by
  have hb := Family.books_of_reach h
  exact ⟨fun s => ⟨hb.account.total s, hb.account.availProc s, hb.limited s⟩, hb.account.avail,
    hb.account.keys_nodup, fun op e hallow hker =>
      (masterExec_books hb.account hb.head hallow hker).error e⟩

instance (kids : Finset MasterPid) (dead : List Waited) : Decidable (WaitOk kids dead) :=
  inferInstanceAs (Decidable (_ ∧ _))

/-- A call other than a start, if it is allowed, the kernel is right and it does not panic. -/
def familyCall (m : Family) (op : MasterOp) : Option Family :=
  if (op.forked m.world).all (· ∉ m.kids) ∧ WaitOk m.kids op.reaped then
    (masterCall m.world op).map fun w =>
      ⟨w, kidsLeft (kidsAfter m.kids (op.forked m.world)) op.reaped⟩
  else none

theorem step_of_familyCall {m m' : Family} {op : MasterOp} (h : familyCall m op = some m') :
    familySystem.step m op m' := by
  unfold familyCall at h
  split at h
  · rename_i hker
    obtain ⟨w, hw, rfl⟩ := Option.map_eq_some_iff.1 h
    obtain ⟨hallow, hexec⟩ := step_of_masterCall hw
    refine ⟨hallow, ⟨fun pid hpid => ?_, hker.2⟩, hexec, rfl⟩
    simpa [hpid] using hker.1
  · cases h

/-- A service without a limit, with one busy child and one that is available. -/
theorem accounting_exact_two : ∃ m, familySystem.Reach m ∧ (m.world.serv 0).totalProc = 2 ∧
    (m.world.serv 0).availProc = 1 ∧ m.world.totalOf 0 = 2 ∧ m.world.availOf 0 = 1 := by
  have hrun : ((masterExec masterInit (.start (smtpEnt 0) smtpFds)).toOption.bind fun v =>
      [MasterOp.availEvent 0 (some 100) 1000, .statusEvent 0 (.stat ⟨100, masterStatTaken⟩),
        .availEvent 0 (some 101) 1000].foldlM familyCall ⟨v, ∅⟩).map
        (fun m => ((m.world.serv 0).totalProc, (m.world.serv 0).availProc)) = some (2, 1) := by
    decide +kernel
  obtain ⟨m, hm, hobs⟩ := Option.map_eq_some_iff.1 hrun
  obtain ⟨v, hv, hm⟩ := Option.bind_eq_some_iff.1 hm
  obtain ⟨tr, hp, -⟩ := LTS.Path.of_foldlM (S := familySystem)
    (fun _ _ _ => step_of_familyCall) hm
  have hst : familySystem.step ⟨masterInit, ∅⟩ (.start (smtpEnt 0) smtpFds) ⟨v, ∅⟩ :=
    ⟨smtpFds_unused, MasterOp.kernelOk_of_quiet rfl rfl, toOption_eq_some hv, rfl⟩
  have hreach : familySystem.Reach m := ⟨_, _, rfl, hp.cons hst⟩
  obtain ⟨htotal, havail⟩ := Prod.mk.inj hobs
  obtain ⟨hcount, -⟩ := accounting_exact hreach
  have hcount := hcount 0
  exact ⟨m, hreach, htotal, havail, by omega, by omega⟩

end Nowra
