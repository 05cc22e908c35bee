import Mathlib.Data.List.Find
import Nowra.Conf
import Nowra.Roster
import Nowra.Stop

/-!
# The services after a reload

What `master_refresh` makes of the services. The lines of the file are read one after another, and
`World.Read` says what has become of the services by then : those without the mark are the first of
their keys on the list, the keys that were read are theirs, and each has the settings of the last
line with its key. The sweep stops the others, and changes neither the settings nor the descriptors
of those that stay (`Conf.Swept.keeps`). So the services on the list are those of the file
(`refresh_configures`).

The reload is a run of its parts (`refresh_reaches`), so what holds in every reachable state holds
after it.
-/

namespace Nowra

open World

/-- What identifies a service, its endpoint name and its transport type. -/
def MasterServ.key (serv : MasterServ) : String × ServType := (serv.name, serv.type)

/-- What a service takes from its line : `wakeup_time`, `max_proc`, `throttle_delay`, `path`, `args`
and `MASTER_FLAG_CONDWAKE`. -/
def MasterServ.settings (serv : MasterServ) : ℤ × ℤ × ℤ × String × List String × Bool :=
  (serv.wakeupTime, serv.maxProc, serv.throttleDelay, serv.path, serv.args, serv.flags.condwake)

/-- The keys of the lines of a file. -/
def lineKeys (lines : List (MasterEnt × ServFds)) : List (String × ServType) :=
  lines.map fun line => (getMasterEnt line.1).key

/-- The last entry with a key that `get_master_ent` returns. -/
def lastEntry (lines : List (MasterEnt × ServFds)) (key : String × ServType) :
    Option MasterServ :=
  (lines.reverse.map fun line => getMasterEnt line.1).find? fun entry => entry.key = key

theorem lastEntry_snoc (lines : List (MasterEnt × ServFds)) (line : MasterEnt × ServFds)
    (key : String × ServType) : lastEntry (lines ++ [line]) key =
      if (getMasterEnt line.1).key = key then some (getMasterEnt line.1)
      else lastEntry lines key := by
  unfold lastEntry
  rw [List.reverse_concat, List.map_cons, List.find?_cons]
  by_cases hkey : (getMasterEnt line.1).key = key <;> simp [hkey]

theorem mem_lineKeys_snoc {lines : List (MasterEnt × ServFds)} {line : MasterEnt × ServFds}
    {key : String × ServType} : key ∈ lineKeys (lines ++ [line]) ↔
      key ∈ lineKeys lines ∨ key = (getMasterEnt line.1).key := by
  simp [lineKeys, eq_comm]

namespace World

/-- The first service on the list with a key. -/
def firstOf (w : World) (key : String × ServType) : Option ServPtr :=
  w.masterHead.find? fun s => (w.serv s).key = key

theorem entryOf_eq (w : World) (ent : MasterEnt) :
    w.entryOf ent = w.firstOf (getMasterEnt ent).key := by
  simp only [entryOf, firstOf, MasterServ.key, Prod.mk.injEq]

theorem firstOf_some {w : World} {key : String × ServType} {s : ServPtr}
    (h : w.firstOf key = some s) : s ∈ w.masterHead ∧ (w.serv s).key = key :=
  ⟨List.mem_of_find?_eq_some h, by simpa using List.find?_some h⟩

/-- Some service has the key, so one is the first of them. -/
theorem exists_firstOf {w : World} {s : ServPtr} (hs : s ∈ w.masterHead) :
    ∃ t, w.firstOf (w.serv s).key = some t := by
  rw [← Option.isSome_iff_exists, firstOf, List.find?_isSome]
  exact ⟨s, hs, by simp⟩

/-- The search reads the list and the keys on it. -/
theorem firstOf_congr {w w' : World} (hhead : w'.masterHead = w.masterHead)
    (hkey : ∀ s ∈ w.masterHead, (w'.serv s).key = (w.serv s).key) (key : String × ServType) :
    w'.firstOf key = w.firstOf key := by
  rw [firstOf, firstOf, hhead]
  refine List.find?_congr fun s hs => ?_
  rw [hkey s hs]

/-! ## The lines -/

/-- `w` is what the marked master `old` has become when the lines have been read. -/
structure Read (old : World) (lines : List (MasterEnt × ServFds)) (w : World) : Prop where
  table : w.masterChildTable = old.masterChildTable
  proc : w.proc = old.proc
  kept : ∀ s ∈ old.masterHead, s ∈ w.masterHead ∧ (w.serv s).key = (old.serv s).key ∧
    (w.serv s).listenFd = (old.serv s).listenFd
  first : ∀ key s, old.firstOf key = some s → w.firstOf key = some s
  found : ∀ key ∈ lineKeys lines, ∃ s, w.firstOf key = some s
  unmarked : ∀ s ∈ w.masterHead, (w.serv s).flags.mark = false ↔
    w.firstOf (w.serv s).key = some s ∧ (w.serv s).key ∈ lineKeys lines
  added : ∀ s ∈ w.masterHead, s ∉ old.masterHead → (w.serv s).flags.mark = false
  settings : ∀ s ∈ w.masterHead, (w.serv s).flags.mark = false →
    (lastEntry lines (w.serv s).key).map MasterServ.settings = some (w.serv s).settings

theorem read_mark (w : World) : (masterMark w).Read [] (masterMark w) := by
  have hmark : ∀ s ∈ w.masterHead, ((masterMark w).serv s).flags.mark = true := fun s hs => by
    simp [masterMark, hs]
  refine ⟨rfl, rfl, fun s hs => ⟨hs, rfl, rfl⟩, fun _ _ h => h, by simp [lineKeys],
    fun s hs => ?_, fun s hs hns => (hns hs).elim, fun s hs hf => ?_⟩
  · simp [hmark s hs, lineKeys]
  · simp [hmark s hs] at hf

/-- A line for a service that is on the list. -/
theorem Read.update {old w w' : World} {lines : List (MasterEnt × ServFds)}
    {line : MasterEnt × ServFds} {s : ServPtr} (h : old.Read lines w)
    (hs : w.firstOf (getMasterEnt line.1).key = some s)
    (hup : w.Updated w' s line.1 line.2.status) : old.Read (lines ++ [line]) w' := by
  obtain ⟨hmem, hskey⟩ := firstOf_some hs
  have hhead := hup.head
  have hserv := hup.serv_self
  have hkey : ∀ t, (w'.serv t).key = (w.serv t).key := by
    intro t
    rcases eq_or_ne t s with rfl | ht
    · rw [hserv]
      rfl
    · rw [hup.serv_of_ne ht]
  have hfirst : ∀ key, w'.firstOf key = w.firstOf key :=
    firstOf_congr hhead fun t _ => hkey t
  -- the first service with the key of the line is `s`
  have hother : ∀ t, t ≠ s → w.firstOf (w.serv t).key = some t →
      (w.serv t).key ≠ (getMasterEnt line.1).key := by
    intro t hne hft he
    rw [he, hs] at hft
    exact hne (Option.some.inj hft).symm
  refine ⟨(congrArg World.masterChildTable hup.eq :).trans h.table,
    (congrArg World.proc hup.eq :).trans h.proc, fun t ht => ?_, fun key t ht => ?_,
    fun key hk => ?_, fun t ht => ?_, fun t ht hnew => ?_, fun t ht hmark => ?_⟩
  · obtain ⟨hmem', hkey', hfd⟩ := h.kept t ht
    exact ⟨hhead ▸ hmem', (hkey t).trans hkey', (hup.listenFd t).trans hfd⟩
  · rw [hfirst]
    exact h.first key t ht
  · rw [hfirst]
    rcases mem_lineKeys_snoc.1 hk with hk | rfl
    · exact h.found key hk
    · exact ⟨s, hs⟩
  · rw [hhead] at ht
    rw [hkey, hfirst, mem_lineKeys_snoc]
    rcases eq_or_ne t s with rfl | hne
    · simp [hserv, MasterServ.reloaded, hskey, hs]
    · rw [hup.serv_of_ne hne, h.unmarked t ht]
      exact and_congr_right fun hft => (or_iff_left (hother t hne hft)).symm
  · rw [hhead] at ht
    rcases eq_or_ne t s with rfl | hne
    · simp [hserv, MasterServ.reloaded]
    · rw [hup.serv_of_ne hne]
      exact h.added t ht hnew
  · rw [hhead] at ht
    rw [lastEntry_snoc, hkey]
    rcases eq_or_ne t s with rfl | hne
    · rw [if_pos hskey.symm, hserv]
      rfl
    · rw [hup.serv_of_ne hne] at hmark ⊢
      have hft := ((h.unmarked t ht).1 hmark).1
      rw [if_neg (hother t hne hft).symm]
      exact h.settings t ht hmark

/-- A line for a new service. -/
theorem Read.start {old w w' : World} {lines : List (MasterEnt × ServFds)}
    {line : MasterEnt × ServFds} (h : old.Read lines w)
    (hnone : w.firstOf (getMasterEnt line.1).key = none)
    (hfresh : ∀ s ∈ w.masterHead, s < w.nextServ) (hst : w.Started w' line.1 line.2) :
    old.Read (lines ++ [line]) w' := by
  have hold : ∀ t ∈ w.masterHead, w'.serv t = w.serv t := fun t ht =>
    hst.serv_of_ne (hfresh t ht).ne
  have hkey : (w'.serv w.nextServ).key = (getMasterEnt line.1).key := by
    rw [hst.serv_self]
    rfl
  have hfirst : ∀ key, w'.firstOf key =
      if (getMasterEnt line.1).key = key then some w.nextServ else w.firstOf key := by
    intro key
    rw [firstOf, hst.head, List.find?_cons, hkey]
    split
    · simp_all
    · rename_i hne
      rw [if_neg (by simpa using hne), firstOf]
      exact List.find?_congr fun t ht => by rw [hold t ht]
  have hother : ∀ t ∈ w.masterHead, (getMasterEnt line.1).key ≠ (w.serv t).key := by
    intro t ht he
    obtain ⟨u, hu⟩ := exists_firstOf ht
    rw [← he, hnone] at hu
    cases hu
  refine ⟨(congrArg World.masterChildTable hst.eq :).trans h.table,
    (congrArg World.proc hst.eq :).trans h.proc, fun t ht => ?_, fun key t ht => ?_,
    fun key hk => ?_, fun t ht => ?_, fun t ht hnew => ?_, fun t ht hmark => ?_⟩
  · obtain ⟨hmem, hkey', hfd⟩ := h.kept t ht
    rw [hst.head, hold t hmem]
    exact ⟨List.mem_cons_of_mem _ hmem, hkey', hfd⟩
  · have hft := h.first key t ht
    rw [hfirst, if_neg, hft]
    rintro rfl
    rw [hnone] at hft
    cases hft
  · rw [hfirst]
    split
    · exact ⟨_, rfl⟩
    · rename_i hne
      exact h.found key ((mem_lineKeys_snoc.1 hk).resolve_right fun he => hne he.symm)
  · rw [hst.head] at ht
    rw [hfirst, mem_lineKeys_snoc]
    rcases List.mem_cons.1 ht with rfl | ht
    · rw [hkey, if_pos rfl, hst.serv_self]
      exact iff_of_true rfl ⟨rfl, Or.inr rfl⟩
    · rw [hold t ht, h.unmarked t ht, if_neg (hother t ht), or_iff_left (hother t ht).symm]
  · rw [hst.head] at ht
    rcases List.mem_cons.1 ht with rfl | ht
    · simp [hst.serv_self, getMasterEnt]
    · rw [hold t ht]
      exact h.added t ht hnew
  · rw [hst.head] at ht
    rw [lastEntry_snoc]
    rcases List.mem_cons.1 ht with rfl | ht
    · rw [if_pos hkey.symm, hst.serv_self]
      rfl
    · rw [hold t ht] at hmark ⊢
      rw [if_neg (hother t ht)]
      exact h.settings t ht hmark

theorem Read.ent {old w w' : World} {lines : List (MasterEnt × ServFds)}
    {line : MasterEnt × ServFds} (h : old.Read lines w)
    (hfresh : ∀ s ∈ w.masterHead, s < w.nextServ) (hfds : w.EntryFds line.1 line.2)
    (hw : masterConfigEnt w line = .ok w') :
    old.Read (lines ++ [line]) w' ∧ ∀ s ∈ w'.masterHead, s < w'.nextServ := by
  rcases masterConfigEnt_cases hfds hw with ⟨hentry, -, hst⟩ | ⟨s, hentry, -, -, hw⟩
  · refine ⟨h.start ((entryOf_eq w line.1).symm.trans hentry) hfresh hst, fun s hs => ?_⟩
    rw [hst.head] at hs
    rw [hst.nextServ]
    rcases List.mem_cons.1 hs with rfl | hs
    · exact Nat.lt_succ_self _
    · exact (hfresh s hs).trans (Nat.lt_succ_self _)
  · have hup := masterConfigUpdate_ok hw
    refine ⟨h.update ((entryOf_eq w line.1).symm.trans hentry) hup, ?_⟩
    rw [hup.head, hup.nextServ]
    exact hfresh

/-- The file is read line by line. -/
theorem Read.config {old : World} {rest : List (MasterEnt × ServFds)} :
    ∀ {lines : List (MasterEnt × ServFds)} {w w' : World}, old.Read lines w →
      (∀ s ∈ w.masterHead, s < w.nextServ) → ConfigFds rest w → masterConfig w rest = .ok w' →
        old.Read (lines ++ rest) w' := by
  induction rest with
  | nil =>
    intro lines w w' h _ _ hw
    obtain rfl := Except.ok.inj hw
    rwa [List.append_nil]
  | cons line rest ih =>
    intro lines w w' h hfresh hfds hw
    obtain ⟨v, hv, hw⟩ := bind_ok_iff.1 hw
    obtain ⟨hread, hfresh'⟩ := h.ent hfresh hfds.1 hv
    have hrest := ih hread hfresh' (hfds.2 v hv) hw
    rwa [List.append_assoc] at hrest

end World

/-! ## The sweep -/

/-- What a service keeps while others are stopped. -/
def MasterServ.entry (serv : MasterServ) :=
  (serv.key, serv.settings, serv.flags.mark, serv.listenFd)

/-- No move but a spawn changes the entry of a service. -/
theorem World.Move.entry {clock : ℤ → Prop} {w w' : World} (h : World.Move clock False w w')
    (t : ServPtr) : (w'.serv t).entry = (w.serv t).entry := by
  cases h with
  | books heq hserv =>
    obtain ⟨avail, total, ht⟩ := hserv t
    rw [ht]
    rfl
  | woken s hspawns => exact hspawns.elim
  | @rearm _ s hre =>
    rcases eq_or_ne t s with rfl | ht
    · rw [hre.serv_self]
      rfl
    · rw [hre.serv, Function.update_of_ne ht]
  | @throttle s now r hs hnow hthr hr =>
    rcases eq_or_ne t s with rfl | ht
    · simp [updServ, MasterServ.entry, MasterServ.key, MasterServ.settings]
    · simp [updServ, ht]
  | @release s now hnow hthr =>
    rcases eq_or_ne t s with rfl | ht
    · simp [released, updServ, MasterServ.entry, MasterServ.key, MasterServ.settings]
    · simp [released, updServ, ht]
  | @expire timer timers now hfirst hnow hcb hthr =>
    rcases eq_or_ne t timer.context with rfl | ht
    · simp [released, updServ, MasterServ.entry, MasterServ.key, MasterServ.settings]
    · simp [released, updServ, ht]
  | drop => rfl
  | clocked => rfl
  | deafen heq hset => exact congrArg (fun serv => (serv t).entry) (congrArg World.serv heq :)

/-- `w'` is `w` after services were stopped, and `dead` was reaped by then. -/
structure World.Without (w w' : World) (gone : List ServPtr) (dead : List Waited) : Prop where
  head : w'.masterHead = w.masterHead.filter (· ∉ gone)
  nextServ : w'.nextServ = w.nextServ
  entry : ∀ t ∉ gone, (w'.serv t).entry = (w.serv t).entry
  record : ∀ p ∈ w.children, (∀ d ∈ dead, d.pid ≠ (w.proc p).pid) →
    p ∈ w'.children ∧ w'.proc p = w.proc p

namespace World

theorem Without.refl (w : World) : w.Without w [] [] :=
  ⟨by simp, rfl, fun _ _ => rfl, fun _ hp _ => ⟨hp, rfl⟩⟩

theorem Without.trans {w v w' : World} {gone gone' : List ServPtr} {dead dead' : List Waited}
    (h : w.Without v gone dead) (h' : v.Without w' gone' dead') :
    w.Without w' (gone ++ gone') (dead ++ dead') := by
  refine ⟨?_, h'.nextServ.trans h.nextServ, fun t ht => ?_, fun p hp hne => ?_⟩
  · rw [h'.head, h.head, List.filter_filter]
    refine List.filter_congr fun s _ => ?_
    simp [Bool.and_comm]
  · rw [List.mem_append, not_or] at ht
    exact (h'.entry t ht.2).trans (h.entry t ht.1)
  · obtain ⟨hmem, hproc⟩ := h.record p hp fun d hd => hne d (List.mem_append_left _ hd)
    obtain ⟨hmem', hproc'⟩ := h'.record p hmem fun d hd => by
      rw [hproc]
      exact hne d (List.mem_append_right _ hd)
    exact ⟨hmem', hproc'.trans hproc⟩

end World

/-- What `waitpid` returned after a part of it was reaped. -/
theorem WaitOk.append {kids : Finset MasterPid} {dead dead' reaped : List Waited}
    (h : WaitOk kids (dead ++ dead')) (hsub : reaped.Sublist dead) :
    WaitOk kids dead ∧ WaitOk (kidsLeft kids reaped) dead' := by
  obtain ⟨hmem, hnd⟩ := h
  rw [List.map_append, List.nodup_append] at hnd
  obtain ⟨hnd, hnd', hdisj⟩ := hnd
  refine ⟨⟨fun d hd => hmem d (List.mem_append_left _ hd), hnd⟩, fun d hd => ?_, hnd'⟩
  exact mem_kidsLeft (hmem d (List.mem_append_right _ hd)) fun d' hd' =>
    hdisj _ (List.mem_map_of_mem (hsub.subset hd')) _ (List.mem_map_of_mem hd)

/-- A removal takes one service out. -/
theorem masterRemove_without {w w' : World} {kids : Finset MasterPid} {s : ServPtr}
    {dead : List (List Waited)} {now : ℤ} (h : masterRemove w s dead now = .ok (some w'))
    (hacc : w.Account kids) (hs : s < w.nextServ) (hwait : WaitOk kids dead.flatten) :
    w.Without w' [s] dead.flatten ∧
      ∃ reaped, reaped.Sublist dead.flatten ∧ w'.Account (kidsLeft kids reaped) := by
  obtain ⟨hhead, hnext⟩ := masterRemove_head h
  obtain ⟨v, t, u, r, hv, ht, hwhile, hr, hsil⟩ := masterStopService_ok h
  obtain ⟨n, -, -, hu, -⟩ := masterReapWhile_take hwhile
  have hsub : (dead.take n).flatten.Sublist dead.flatten := (List.take_sublist n dead).flatten
  have heqv := (masterStatusCleanup_ok hv).1
  have haccv : v.Account kids :=
    masterStatusCleanup_account hv (hacc.of_eq rfl rfl rfl rfl fun _ => ⟨rfl, rfl⟩)
  have hsamet := masterThrottle_sameBooks ht
  have hsamer := masterUnthrottle_sameBooks hr
  have hacct := haccv.of_same hsamet
  have haccr := (((masterReapChild_books hacct (hwait.take n)).ok _ hu).1).of_same hsamer
  have hsv : s < v.nextServ := (congrArg World.nextServ heqv :) ▸ hs
  have hmoves : World.Moves (fun _ => True) False v r :=
    reap_throttled_moves ht hu hr haccv (hwait.take n) hsv trivial fun _ _ => trivial
  refine ⟨⟨?_, hnext, fun x hx => ?_, fun p hp hne => ?_⟩, _, hsub, hsil.account haccr⟩
  · rw [hhead]
    exact List.filter_congr fun x _ => by simp
  · have hne : x ≠ s := by simpa using hx
    have hsilenced : w'.serv x = r.serv x :=
      (congrFun (congrArg World.serv hsil.eq) x :).trans (Function.update_of_ne hne _ _)
    have hclosed : v.serv x = w.serv x :=
      (congrFun (congrArg World.serv heqv) x :).trans (Function.update_of_ne hne _ _)
    have hentry : (r.serv x).entry = (v.serv x).entry :=
      hmoves.invariant (P := fun y => (y.serv x).entry = (v.serv x).entry)
        (fun _ _ hmove hy => (hmove.entry x).trans hy) rfl
    rw [hsilenced, hentry, hclosed]
  · have hprocv : v.proc = w.proc := (congrArg World.proc heqv :)
    have hproct : t.proc p = w.proc p := congrFun (hsamet.proc.trans hprocv) p
    have hmemt : p ∈ t.children := by
      rw [children, hsamet.table, (congrArg World.masterChildTable heqv :)]
      exact hp
    have hneu : ∀ d ∈ (dead.take n).flatten, d.pid ≠ (t.proc p).pid := fun d hd => by
      rw [hproct]
      exact hne d (hsub.subset hd)
    obtain ⟨hmem, hproc⟩ := masterReapChild_kept hacct (hwait.take n) hu hmemt hneu
    have hprocs : w'.proc = u.proc := (congrArg World.proc hsil.eq :).trans hsamer.proc
    have htable : w'.masterChildTable = u.masterChildTable :=
      (congrArg World.masterChildTable hsil.eq :).trans hsamer.table
    rw [children, htable, hprocs]
    exact ⟨hmem, hproc.trans hproct⟩

/-- The marked services are stopped, and the others keep their entries. -/
theorem Conf.Swept.keeps {dead : ServPtr → List (List Waited)} {now : ℤ} {list gone : List ServPtr}
    {w w' : World} (h : Conf.Swept dead now list w gone w') :
    ∀ {kids : Finset MasterPid}, w.Account kids → list.Nodup → (∀ s ∈ list, s < w.nextServ) →
      WaitOk kids (gone.flatMap fun s => (dead s).flatten) →
        gone = list.filter (fun s => (w.serv s).flags.mark) ∧
          w.Without w' gone (gone.flatMap fun s => (dead s).flatten) := by
  induction h with
  | done => exact fun _ _ _ _ => ⟨rfl, .refl _⟩
  | @stop s list gone w v w' hmark hv h ih =>
    intro kids hacc hnd hfresh hwait
    obtain ⟨hs, hnd⟩ := List.nodup_cons.1 hnd
    rw [List.flatMap_cons] at hwait ⊢
    obtain ⟨hwithout, reaped, hsub, haccv⟩ :=
      masterRemove_without hv hacc (hfresh s (by simp)) (hwait.append (.refl _)).1
    have hfreshv : ∀ t ∈ list, t < v.nextServ := fun t ht => by
      rw [hwithout.nextServ]
      exact hfresh t (by simp [ht])
    obtain ⟨hgone, hrest⟩ := ih haccv hnd hfreshv (hwait.append hsub).2
    refine ⟨?_, hwithout.trans hrest⟩
    rw [List.filter_cons, if_pos hmark, hgone]
    congr 1
    refine List.filter_congr fun t ht => ?_
    have hentry := hwithout.entry t (by simpa using ne_of_mem_of_not_mem ht hs)
    exact congrArg (fun entry => entry.2.2.1) hentry
  | @keep s list gone w w' hmark h ih =>
    intro kids hacc hnd hfresh hwait
    obtain ⟨hgone, hrest⟩ :=
      ih hacc (List.nodup_cons.1 hnd).2 (fun t ht => hfresh t (by simp [ht])) hwait
    refine ⟨?_, hrest⟩
    rw [List.filter_cons, if_neg (by simp [hmark])]
    exact hgone

/-! ## A reload -/

/-- No service is on the list twice. -/
theorem Family.head_nodup_of_reach {m : Family} (h : reloadSystem.Reach m) :
    m.world.masterHead.Nodup := by
  suffices hinv : m.Managed ∧ m.world.masterHead.Nodup from hinv.2
  refine h.invariant (P := fun m => m.Managed ∧ m.world.masterHead.Nodup) ?_
    fun m op m' hm hst => ⟨(hm.1.step hst).1, ?_⟩
  · rintro _ rfl
    exact ⟨managed_init, List.nodup_nil⟩
  obtain ⟨hmanaged, hnd⟩ := hm
  obtain ⟨hallow, hexec, -⟩ := hst
  have hnew : m.world.nextServ ∉ m.world.masterHead := fun hmem =>
    lt_irrefl _ (hmanaged.head _ hmem).1
  cases op with
  | call op =>
    have hw := ok_of_map_some hexec
    by_cases hstart : ∃ ent fds, op = .start ent fds
    · obtain ⟨ent, fds, rfl⟩ := hstart
      rw [(masterConfigNew_head hw).1]
      exact List.nodup_cons.2 ⟨hnew, hnd⟩
    · rw [(masterExec_keeps hw fun ent fds he => hstart ⟨ent, fds, he⟩).head]
      exact hnd
  | mark =>
    have heq : masterMark m.world = m'.world := Option.some.inj (Except.ok.inj hexec)
    rw [← heq]
    exact hnd
  | entry ent fds =>
    rcases masterConfigEnt_cases hallow (ok_of_map_some hexec) with
      ⟨-, -, hst⟩ | ⟨s, -, -, -, hw⟩
    · rw [hst.head]
      exact List.nodup_cons.2 ⟨hnew, hnd⟩
    · rw [(masterConfigUpdate_ok hw).head]
      exact hnd
  | remove s dead now =>
    rw [(masterRemove_head hexec).1]
    exact hnd.filter _

/-- What a reload of the file leaves. `w` is the master before it, and `dead` is what is reaped
while it runs. -/
structure Conf.Refreshed (w : World) (lines : List (MasterEnt × ServFds)) (dead : List Waited)
    (c : Conf) : Prop where
  links : c.links.Holds c.world.masterHead
  distinct : (c.world.masterHead.map fun s => (c.world.serv s).key).Nodup
  keys : ∀ key, key ∈ c.world.masterHead.map (fun s => (c.world.serv s).key) ↔
    key ∈ lineKeys lines
  unmarked : ∀ s ∈ c.world.masterHead, (c.world.serv s).flags.mark = false
  settings : ∀ s ∈ c.world.masterHead,
    (lastEntry lines (c.world.serv s).key).map MasterServ.settings =
      some (c.world.serv s).settings
  /-- The first service of a key in the file stays, with its descriptor. -/
  kept : ∀ s ∈ w.masterHead, s ∈ c.world.masterHead ↔
    w.firstOf (w.serv s).key = some s ∧ (w.serv s).key ∈ lineKeys lines
  listenFd : ∀ s ∈ w.masterHead, s ∈ c.world.masterHead →
    (c.world.serv s).key = (w.serv s).key ∧ (c.world.serv s).listenFd = (w.serv s).listenFd
  record : ∀ p ∈ w.children, (∀ d ∈ dead, d.pid ≠ (w.proc p).pid) →
    p ∈ c.world.children ∧ c.world.proc p = w.proc p
  /-- The others are stopped once each. -/
  stopped : ∀ s, c.stopped.count s = if s ∈ w.masterHead ∧ s ∉ c.world.masterHead then 1 else 0
  unlinked : ∀ s ∈ w.masterHead, (w.serv s).key ∉ lineKeys lines →
    c.stopped.count s = 1 ∧ s ∉ c.world.masterHead

theorem masterMark_key (w : World) (s : ServPtr) :
    ((masterMark w).serv s).key = (w.serv s).key := by
  obtain ⟨mark, hs⟩ := masterMark_serv w s
  rw [hs]
  rfl

/-- The old services are there when the lines have been read. -/
theorem World.Read.of_mark {w v : World} {lines : List (MasterEnt × ServFds)} {s : ServPtr}
    (h : (masterMark w).Read lines v) (hs : s ∈ w.masterHead) :
    s ∈ v.masterHead ∧ (v.serv s).key = (w.serv s).key ∧
      (v.serv s).listenFd = (w.serv s).listenFd := by
  obtain ⟨hmem, hkey, hfd⟩ := h.kept s hs
  obtain ⟨mark, hmark⟩ := masterMark_serv w s
  rw [hmark] at hfd
  exact ⟨hmem, hkey.trans (masterMark_key w s), hfd⟩

/-- The first of the old services with a key is unmarked if there is a line for it. -/
theorem World.Read.unmarked_iff {w v : World} {lines : List (MasterEnt × ServFds)} {s : ServPtr}
    (h : (masterMark w).Read lines v) (hs : s ∈ w.masterHead) :
    (v.serv s).flags.mark = false ↔
      w.firstOf (w.serv s).key = some s ∧ (w.serv s).key ∈ lineKeys lines := by
  obtain ⟨hmem, hkey, -⟩ := h.of_mark hs
  obtain ⟨t, ht⟩ := exists_firstOf hs
  -- the first of the old services with the key is the first of all of them
  have hmarkFirst : (masterMark w).firstOf (w.serv s).key = w.firstOf (w.serv s).key := by
    refine firstOf_congr ?_ (fun x _ => masterMark_key w x) _
    rfl
  have hvt : v.firstOf (w.serv s).key = some t := h.first _ t (hmarkFirst.trans ht)
  rw [h.unmarked s hmem, hkey, hvt, ht]

/-- When the lines have been read and the marked services are gone, the list is that of the file.
-/
theorem World.Read.refreshed {w v : World} {lines : List (MasterEnt × ServFds)} {dead : List Waited}
    {c : Conf} (h : (masterMark w).Read lines v) (hlinked : c.Linked)
    (hgone : c.stopped = v.masterHead.filter fun s => (v.serv s).flags.mark)
    (hnd : v.masterHead.Nodup) (hwithout : v.Without c.world c.stopped dead) :
    Conf.Refreshed w lines dead c := by
  have hstay : ∀ s, s ∈ c.world.masterHead ↔
      s ∈ v.masterHead ∧ (v.serv s).flags.mark = false := by
    intro s
    rw [hwithout.head, hgone]
    simp +contextual
  have hentry : ∀ s ∈ c.world.masterHead, (c.world.serv s).entry = (v.serv s).entry := by
    intro s hs
    refine hwithout.entry s fun hmem => ?_
    rw [hgone, List.mem_filter] at hmem
    simp [((hstay s).1 hs).2] at hmem
  have hkey : ∀ s ∈ c.world.masterHead, (c.world.serv s).key = (v.serv s).key := fun s hs =>
    congrArg Prod.fst (hentry s hs)
  have hsettings : ∀ s ∈ c.world.masterHead, (c.world.serv s).settings = (v.serv s).settings :=
    fun s hs => congrArg (fun entry => entry.2.1) (hentry s hs)
  have hfirst : ∀ s ∈ c.world.masterHead, v.firstOf (c.world.serv s).key = some s ∧
      (c.world.serv s).key ∈ lineKeys lines := by
    intro s hs
    rw [hkey s hs]
    exact (h.unmarked s ((hstay s).1 hs).1).1 ((hstay s).1 hs).2
  have hkept : ∀ s ∈ w.masterHead, s ∈ c.world.masterHead ↔
      w.firstOf (w.serv s).key = some s ∧ (w.serv s).key ∈ lineKeys lines := by
    intro s hs
    rw [hstay, and_iff_right (h.of_mark hs).1, h.unmarked_iff hs]
  have hstopped : ∀ s, s ∈ c.stopped ↔ s ∈ w.masterHead ∧ s ∉ c.world.masterHead := by
    intro s
    rw [hgone, List.mem_filter, hstay]
    constructor
    · rintro ⟨hmem, hmark⟩
      refine ⟨by_contra fun hs => ?_, by simp [hmark]⟩
      rw [h.added s hmem hs] at hmark
      cases hmark
    · rintro ⟨hs, hmark⟩
      obtain ⟨hmem, -, -⟩ := h.of_mark hs
      exact ⟨hmem, by simpa [hmem] using hmark⟩
  have hcount : ∀ s, c.stopped.count s =
      if s ∈ w.masterHead ∧ s ∉ c.world.masterHead then 1 else 0 := by
    intro s
    have hnds : c.stopped.Nodup := hgone ▸ hnd.filter _
    rw [hnds.count]
    exact if_congr (hstopped s) rfl rfl
  refine ⟨hlinked.holds, ?_, fun key => ⟨fun hmem => ?_, fun hmem => ?_⟩, fun s hs => ?_,
    fun s hs => ?_, hkept, fun s hs hs' => ?_, fun p hp hne => ?_, hcount, fun s hs hno => ?_⟩
  · refine List.Nodup.map_on (fun s hs t ht he => ?_) hlinked.nodup
    have hs' := (hfirst s hs).1
    rw [he, (hfirst t ht).1] at hs'
    exact (Option.some.inj hs').symm
  · obtain ⟨s, hs, rfl⟩ := List.mem_map.1 hmem
    exact (hfirst s hs).2
  · obtain ⟨s, hs⟩ := h.found key hmem
    obtain ⟨hsv, rfl⟩ := firstOf_some hs
    have hs' : s ∈ c.world.masterHead := (hstay s).2 ⟨hsv, (h.unmarked s hsv).2 ⟨hs, hmem⟩⟩
    exact List.mem_map.2 ⟨s, hs', hkey s hs'⟩
  · have hmark := congrArg (fun entry => entry.2.2.1) (hentry s hs)
    exact hmark.trans ((hstay s).1 hs).2
  · obtain ⟨hmem, hmark⟩ := (hstay s).1 hs
    rw [hkey s hs, hsettings s hs]
    exact h.settings s hmem hmark
  · obtain ⟨-, hk, hfd⟩ := h.of_mark hs
    have hfd' := congrArg (fun entry => entry.2.2.2) (hentry s hs')
    exact ⟨(hkey s hs').trans hk, hfd'.trans hfd⟩
  · have hchildren : v.children = w.children := by
      rw [children, children, h.table]
      rfl
    have hproc : v.proc = w.proc := h.proc
    rw [← hchildren] at hp
    rw [← hproc] at hne ⊢
    exact hwithout.record p hp hne
  · have hgone' : s ∉ c.world.masterHead := fun hs' => hno ((hkept s hs).1 hs').2
    exact ⟨by rw [hcount, if_pos ⟨hs, hgone'⟩], hgone'⟩

/-- A reload that ends has marked the services and read the lines, which is a run, and has swept the
list. -/
theorem swept_of_refresh {m : Family} (h : reloadSystem.Reach m) {links : Links ServPtr}
    (hlinks : links.Holds m.world.masterHead) {lines : List (MasterEnt × ServFds)}
    (hfds : ConfigFds lines (masterMark m.world)) {dead : ServPtr → List (List Waited)} {now : ℤ}
    {fuel : ℕ} (hfuel : m.world.masterHead.length + lines.length ≤ fuel) {c : Conf}
    (hrefresh : Conf.masterRefresh fuel ⟨m.world, links, []⟩ lines dead now = .ok (some c)) :
    ∃ v tr, masterConfig (masterMark m.world) lines = .ok v ∧
      (masterMark m.world).Read lines v ∧ reloadSystem.Path m tr ⟨v, m.kids⟩ ∧
      tr.map (fun x => x.2.1) = .mark :: lines.map (fun line => .entry line.1 line.2) ∧
      c.Linked ∧ Conf.Swept dead now v.masterHead v c.stopped c.world := by
  have hfresh : ∀ s ∈ m.world.masterHead, s < m.world.nextServ := fun s hs =>
    ((Family.managed_of_reach h).head s hs).1
  have hlinked : Conf.Linked ⟨m.world, links, []⟩ :=
    ⟨hlinks, Family.head_nodup_of_reach h, hfresh⟩
  have hagree := @Conf.masterRefresh_spec _ hlinked lines dead now fuel hfuel
  rw [hrefresh] at hagree
  obtain ⟨hlinked', gone, v, hgone, hconfig, hswept⟩ := hagree.of_returns
  rw [List.nil_append] at hgone
  have hread : (masterMark m.world).Read lines v := by
    have hlines := (read_mark m.world).config hfresh hfds hconfig
    rwa [List.nil_append] at hlines
  obtain ⟨tr, hpath, hops⟩ := masterConfig_path m.kids hconfig hfds
  have hmark : reloadSystem.step m .mark ⟨masterMark m.world, m.kids⟩ := ⟨trivial, rfl, rfl⟩
  refine ⟨v, _, hconfig, hread, hpath.cons hmark, ?_, hlinked', hgone ▸ hswept⟩
  rw [List.map_cons, hops]

/-- A reload that ends leaves the services that the file configures. -/
theorem refresh_configures {m : Family} (h : reloadSystem.Reach m) {links : Links ServPtr}
    (hlinks : links.Holds m.world.masterHead) {lines : List (MasterEnt × ServFds)}
    (hfds : ConfigFds lines (masterMark m.world)) {dead : ServPtr → List (List Waited)} {now : ℤ}
    {fuel : ℕ} (hfuel : m.world.masterHead.length + lines.length ≤ fuel) {c : Conf}
    (hrefresh : Conf.masterRefresh fuel ⟨m.world, links, []⟩ lines dead now = .ok (some c))
    (hwait : WaitOk m.kids (c.stopped.flatMap fun s => (dead s).flatten)) :
    Conf.Refreshed m.world lines (c.stopped.flatMap fun s => (dead s).flatten) c := by
  -- the lists of the services : marked, read, swept
  obtain ⟨v, tr, -, hread, hpath, -, hlinked, hswept⟩ :=
    swept_of_refresh h hlinks hfds hfuel hrefresh
  have hv := h.trans hpath
  have hmanagedv := Family.managed_of_reach hv
  have hnd : v.masterHead.Nodup := Family.head_nodup_of_reach hv
  obtain ⟨hfilter, hwithout⟩ :=
    hswept.keeps hmanagedv.account hnd (fun s hs => (hmanagedv.head s hs).1) hwait
  exact hread.refreshed hlinked hfilter hnd hwithout

/-- The sweep is a run of removals, each with the calls of `master_reap_child` that it needs. -/
theorem Conf.Swept.path {dead : ServPtr → List (List Waited)} {now : ℤ} {list gone : List ServPtr}
    {w w' : World} (h : Conf.Swept dead now list w gone w') :
    ∀ {kids : Finset MasterPid}, list.Nodup → (∀ s ∈ list, s ∈ w.masterHead) →
      WaitOk kids (gone.flatMap fun s => (dead s).flatten) →
        ∃ tr kids', reloadSystem.Path ⟨w, kids⟩ tr ⟨w', kids'⟩ ∧
          List.Forall₂ (fun s op => ∃ n, op = .remove s ((dead s).take n) now) gone
            (tr.map fun x => x.2.1) := by
  induction h with
  | done => exact fun _ _ _ => ⟨[], _, .nil, .nil⟩
  | @stop s list gone w v w' hmark hv h ih =>
    intro kids hnd hin hwait
    obtain ⟨hs, hnd⟩ := List.nodup_cons.1 hnd
    rw [List.flatMap_cons] at hwait
    obtain ⟨n, hn, hleast⟩ := masterRemove_least hv
    have hsub : ((dead s).take n).flatten.Sublist (dead s).flatten :=
      (List.take_sublist n (dead s)).flatten
    obtain ⟨hwaits, hwait'⟩ := hwait.append hsub
    have hst : reloadSystem.step ⟨w, kids⟩ (.remove s ((dead s).take n) now)
        ⟨v, kidsLeft kids ((dead s).take n).flatten⟩ :=
      ⟨⟨hin s (by simp), hmark, hwaits.take n, hleast⟩, hn, rfl⟩
    have hinv : ∀ t ∈ list, t ∈ v.masterHead := fun t ht => by
      rw [(masterRemove_head hv).1, List.mem_filter]
      exact ⟨hin t (by simp [ht]), by simpa using ne_of_mem_of_not_mem ht hs⟩
    obtain ⟨tr, kids', hp, hops⟩ := ih hnd hinv hwait'
    exact ⟨_, kids', hp.cons hst, .cons ⟨n, rfl⟩ hops⟩
  | keep _ _ ih =>
    exact fun hnd hin hwait => ih (List.nodup_cons.1 hnd).2 (fun t ht => hin t (by simp [ht])) hwait

/-- A reload that ends is a run : a mark, an entry for each line of the file in order, and a removal
for each service that is stopped. So what holds in every state that a run reaches holds after it. -/
theorem refresh_reaches {m : Family} (h : reloadSystem.Reach m) {links : Links ServPtr}
    (hlinks : links.Holds m.world.masterHead) {lines : List (MasterEnt × ServFds)}
    (hfds : ConfigFds lines (masterMark m.world)) {dead : ServPtr → List (List Waited)} {now : ℤ}
    {fuel : ℕ} (hfuel : m.world.masterHead.length + lines.length ≤ fuel) {c : Conf}
    (hrefresh : Conf.masterRefresh fuel ⟨m.world, links, []⟩ lines dead now = .ok (some c))
    (hwait : WaitOk m.kids (c.stopped.flatMap fun s => (dead s).flatten)) :
    ∃ tr kids stops, reloadSystem.Path m tr ⟨c.world, kids⟩ ∧
      tr.map (fun x => x.2.1) =
        .mark :: lines.map (fun line => .entry line.1 line.2) ++ stops ∧
      List.Forall₂ (fun s op => ∃ n, op = .remove s ((dead s).take n) now) c.stopped stops ∧
      reloadSystem.Reach ⟨c.world, kids⟩ := by
  obtain ⟨v, tr, -, -, hpath, hops, -, hswept⟩ := swept_of_refresh h hlinks hfds hfuel hrefresh
  have hnd : v.masterHead.Nodup := Family.head_nodup_of_reach (h.trans hpath)
  obtain ⟨tr', kids, hpath', hstops⟩ := hswept.path hnd (fun _ hs => hs) hwait
  refine ⟨tr ++ tr', kids, _, hpath.trans hpath', ?_, hstops, (h.trans hpath).trans hpath'⟩
  rw [List.map_append, hops]

/-- A service `pop3`. -/
def popEnt : MasterEnt :=
  { smtpEnt 0 with
    name := "pop3"
    path := ".//pop3d"
    args := ["pop3d", "-n", "pop3", "-t", "inet"] }

/-- The descriptors of a second service. -/
def popFds : ServFds := ⟨9, 10, 11⟩

/-- After the start of `smtp` the descriptors of a second service are not open. -/
theorem popFds_unused {ent : MasterEnt} {v w : World}
    (hv : masterExec masterInit (.start ent smtpFds) = .ok v)
    (hlisten : ∀ s, (w.serv s).listenFd = (v.serv s).listenFd)
    (hstatus : ∀ s, (w.serv s).statusFd = (v.serv s).statusFd) : w.Unused popFds := by
  have hst := masterConfigNew_ok hv smtpFds_unused.read.2.2
  have hopen : ∀ fd : ℤ, 8 < fd → ¬w.Open fd := by
    rintro fd hfd ⟨t, ht⟩
    rw [hlisten, hstatus] at ht
    rcases eq_or_ne t 0 with rfl | hzero
    · have hlisten : (v.serv 0).listenFd = 6 := congrArg MasterServ.listenFd hst.serv_self
      have hstatus : (v.serv 0).statusFd = (7, 8) := congrArg MasterServ.statusFd hst.serv_self
      rw [hlisten, hstatus] at ht
      omega
    · have hnone : v.serv t = masterServNone := hst.serv_of_ne hzero
      rw [hnone] at ht
      simp only [masterServNone] at ht
      omega
  exact ⟨⟨by decide, hopen _ (by decide)⟩, ⟨by decide, hopen _ (by decide), by decide⟩,
    by decide, hopen _ (by decide), by decide⟩

/-- `smtp` has one idle child, and a file without it is read. -/
theorem smtp_refresh : ∃ m links c, reloadSystem.Reach m ∧ links.Holds m.world.masterHead ∧
    m.world.masterHead = [0] ∧ (m.world.serv 0).totalProc = 1 ∧
    ConfigFds [(popEnt, popFds)] (masterMark m.world) ∧
    Conf.masterRefresh 2 ⟨m.world, links, []⟩ [(popEnt, popFds)]
      (fun _ => [[⟨100, 0, 1000⟩]]) 1000 = .ok (some c) ∧
    c.stopped = [0] ∧ c.world.masterHead = [1] ∧ WaitOk m.kids [⟨100, 0, 1000⟩] := by
  have hrun : ((masterExec masterInit (.start (smtpEnt 0) smtpFds)).toOption.bind fun v =>
      [MasterOp.availEvent 0 (some 100) 1000].foldlM familyCall ⟨v, ∅⟩).any (fun m =>
        (Conf.masterRefresh 2 ⟨m.world, Links.push ⟨none, fun _ => none⟩ 0, []⟩ [(popEnt, popFds)]
          (fun _ => [[⟨100, 0, 1000⟩]]) 1000).toOption.join.any fun c =>
            m.world.masterHead = [0] ∧ (m.world.serv 0).totalProc = 1 ∧ c.stopped = [0] ∧
            c.world.masterHead = [1] ∧ (masterMark m.world).entryOf popEnt = none ∧
            WaitOk m.kids [⟨100, 0, 1000⟩]) = true := by
    decide +kernel
  obtain ⟨m, hm, hrun⟩ := (Option.any_eq_true _ _).1 hrun
  obtain ⟨c, hc, hobs⟩ := (Option.any_eq_true _ _).1 hrun
  obtain ⟨hhead, htotal, hstopped, hhead', hnone, hwait⟩ := of_decide_eq_true hobs
  obtain ⟨v, hv, hm⟩ := Option.bind_eq_some_iff.1 hm
  obtain ⟨⟨tr, htr, -⟩, hkeeps⟩ := run_of_familyCalls (toOption_eq_some hv) hm
  have hfds : ConfigFds [(popEnt, popFds)] (masterMark m.world) := by
    refine ⟨?_, fun _ _ => trivial⟩
    simp only [World.EntryFds, hnone]
    refine popFds_unused (toOption_eq_some hv) (fun s => ?_) fun s => ?_
    all_goals
      obtain ⟨mark, hmark⟩ := masterMark_serv m.world s
      rw [hmark]
    · exact hkeeps.listenFd s
    · exact hkeeps.statusFd s
  have hlinks : (Links.push ⟨none, fun _ => none⟩ 0).Holds m.world.masterHead := by
    rw [hhead]
    exact ⟨rfl, rfl⟩
  exact ⟨m, _, c, ⟨tr, htr⟩, hlinks, hhead, htotal, hfds,
    toOption_eq_some (Option.join_eq_some_iff.1 hc), hstopped, hhead', hwait⟩

/-- The reload leaves `pop3`, and has stopped `smtp`. -/
theorem refresh_configures_smtp : ∃ m links c, reloadSystem.Reach m ∧
    m.world.masterHead = [0] ∧ (m.world.serv 0).totalProc = 1 ∧
    Conf.masterRefresh 2 ⟨m.world, links, []⟩ [(popEnt, popFds)]
      (fun _ => [[⟨100, 0, 1000⟩]]) 1000 = .ok (some c) ∧
    c.stopped = [0] ∧ c.world.masterHead = [1] ∧
    Conf.Refreshed m.world [(popEnt, popFds)] [⟨100, 0, 1000⟩] c := by
  obtain ⟨m, links, c, hm, hlinks, hhead, htotal, hfds, hok, hstopped, hhead', hwait⟩ :=
    smtp_refresh
  have hall := refresh_configures hm hlinks hfds (by rw [hhead]; decide) hok
    (by rw [hstopped]; exact hwait)
  rw [hstopped] at hall
  exact ⟨m, links, c, hm, hhead, htotal, hok, hstopped, hhead', hall⟩

/-- It is a mark, an entry and a removal. -/
theorem refresh_reaches_smtp : ∃ m links c tr kids n, reloadSystem.Reach m ∧
    Conf.masterRefresh 2 ⟨m.world, links, []⟩ [(popEnt, popFds)]
      (fun _ => [[⟨100, 0, 1000⟩]]) 1000 = .ok (some c) ∧
    reloadSystem.Path m tr ⟨c.world, kids⟩ ∧ tr.map (fun x => x.2.1) =
      [.mark, .entry popEnt popFds, .remove 0 ([[⟨100, 0, 1000⟩]].take n) 1000] ∧
    reloadSystem.Reach ⟨c.world, kids⟩ := by
  obtain ⟨m, links, c, hm, hlinks, hhead, -, hfds, hok, hstopped, -, hwait⟩ := smtp_refresh
  obtain ⟨tr, kids, stops, hp, hops, hstops, hreach⟩ := refresh_reaches hm hlinks hfds
    (by rw [hhead]; decide) hok (by rw [hstopped]; exact hwait)
  rw [hstopped] at hstops
  obtain ⟨op, rest, ⟨n, rfl⟩, hrest, rfl⟩ := List.forall₂_cons_left_iff.1 hstops
  obtain rfl := List.forall₂_nil_left_iff.1 hrest
  exact ⟨m, links, c, tr, kids, n, hm, hok, hp, hops, hreach⟩

end Nowra
