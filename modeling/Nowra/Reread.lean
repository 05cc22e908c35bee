import Nowra.Refresh

/-!
# A file that is read again

The services are those of a file if their keys and their settings are (`World.InForce`). So they
are after a reload of it, and calls that start no service keep them so, `MASTER_FLAG_CONDWAKE`
apart, which a spawn clears.

When the file is read again, no service is started or stopped. The children, the counts, the
timers and what is watched of the listen descriptors stay, and each service only gets a new status
pipe and its `MASTER_FLAG_CONDWAKE` back (`World.InPlace`). This holds of every time that the file
is read, whatever calls come in between (`reread_in_place`).
-/

namespace Nowra

open World

/-- What identifies a service, and what it has from its line until the next one is read. -/
def MasterServ.configured (serv : MasterServ) :
    (String × ServType) × ℤ × ℤ × ℤ × String × List String :=
  (serv.key, serv.wakeupTime, serv.maxProc, serv.throttleDelay, serv.path, serv.args)

/-- A service without what a line sets, and without its pipe. -/
def MasterServ.running (serv : MasterServ) : MasterServ :=
  { serv with
    flags := { serv.flags with mark := false, condwake := false }
    wakeupTime := 0
    maxProc := 0
    throttleDelay := 0
    path := ""
    args := []
    statusFd := (0, 0) }

namespace World

/-- The services are those of the file. -/
structure InForce (w : World) (lines : List (MasterEnt × ServFds)) : Prop where
  distinct : (w.masterHead.map fun s => (w.serv s).key).Nodup
  keys : ∀ key, key ∈ w.masterHead.map (fun s => (w.serv s).key) ↔ key ∈ lineKeys lines
  unmarked : ∀ s ∈ w.masterHead, (w.serv s).flags.mark = false
  configured : ∀ s ∈ w.masterHead,
    (lastEntry lines (w.serv s).key).map MasterServ.configured = some (w.serv s).configured

/-- `w'` is `w` but for the marks, what the lines set, the pipes and their events. -/
structure InPlace (w w' : World) : Prop where
  eq : w' = { w with masterEl := w'.masterEl, serv := w'.serv }
  running : ∀ s, (w'.serv s).running = (w.serv s).running
  listen : ∀ s ∈ w.masterHead,
    w'.masterEl.regEvents (w.serv s).listenFd = w.masterEl.regEvents (w.serv s).listenFd

variable {w v w' : World} {s : ServPtr} {lines lines' : List (MasterEnt × ServFds)}

theorem InPlace.refl (w : World) : w.InPlace w :=
  ⟨rfl, fun _ => rfl, fun _ _ => rfl⟩

theorem InPlace.head (h : w.InPlace w') : w'.masterHead = w.masterHead :=
  (congrArg World.masterHead h.eq :)

theorem InPlace.key (h : w.InPlace w') (s : ServPtr) : (w'.serv s).key = (w.serv s).key :=
  (congrArg MasterServ.key (h.running s) :)

theorem InPlace.listenFd (h : w.InPlace w') (s : ServPtr) :
    (w'.serv s).listenFd = (w.serv s).listenFd :=
  (congrArg MasterServ.listenFd (h.running s) :)

theorem InPlace.trans (h : w.InPlace v) (h' : v.InPlace w') : w.InPlace w' := by
  refine ⟨?_, fun s => (h'.running s).trans (h.running s), fun s hs => ?_⟩
  · rw [h'.eq, h.eq]
  · have hnext := h'.listen s (h.head.symm ▸ hs)
    rw [h.listenFd s] at hnext
    exact hnext.trans (h.listen s hs)

theorem inPlace_mark (w : World) : w.InPlace (masterMark w) := by
  refine ⟨rfl, fun s => ?_, fun _ _ => rfl⟩
  obtain ⟨mark, hs⟩ := masterMark_serv w s
  rw [hs]
  rfl

/-! ## Calls -/

/-- No move changes what a service has from its line, or its mark. -/
theorem Move.configured {clock : ℤ → Prop} {spawns : Prop} (h : World.Move clock spawns w w')
    (t : ServPtr) : (w'.serv t).configured = (w.serv t).configured ∧
      (w'.serv t).flags.mark = (w.serv t).flags.mark := by
  -- a write to the flags of one service
  have hflags : ∀ {x : World} {u : ServPtr} {f : ServFlags → ServFlags}
      (_ : ∀ flags : ServFlags, (f flags).mark = flags.mark),
      ((x.updServ u fun serv => { serv with flags := f serv.flags }).serv t).configured =
        (x.serv t).configured ∧
      ((x.updServ u fun serv => { serv with flags := f serv.flags }).serv t).flags.mark =
        (x.serv t).flags.mark := by
    intro x u f hf
    rcases eq_or_ne t u with rfl | ht
    · rw [updServ_self]
      exact ⟨rfl, hf _⟩
    · rw [updServ_of_ne ht]
      exact ⟨rfl, rfl⟩
  cases h with
  | books heq hserv =>
    obtain ⟨avail, total, ht⟩ := hserv t
    rw [ht]
    exact ⟨rfl, rfl⟩
  | woken s hspawns =>
    exact hflags (f := fun flags => { flags with condwake := false }) fun _ => rfl
  | @rearm _ s hre =>
    rcases eq_or_ne t s with rfl | ht
    · rw [hre.serv_self]
      exact ⟨rfl, rfl⟩
    · rw [hre.serv, Function.update_of_ne ht]
      exact ⟨rfl, rfl⟩
  | throttle hs hnow hthr hr =>
    exact hflags (f := fun flags => { flags with throttle := true }) fun _ => rfl
  | release hnow hthr =>
    exact hflags (f := fun flags => { flags with throttle := false }) fun _ => rfl
  | expire hfirst hnow hcb hthr =>
    exact hflags (f := fun flags => { flags with throttle := false }) fun _ => rfl
  | drop => exact ⟨rfl, rfl⟩
  | clocked => exact ⟨rfl, rfl⟩
  | deafen heq hset =>
    have hserv : w'.serv = w.serv := (congrArg World.serv heq :)
    rw [hserv]
    exact ⟨rfl, rfl⟩

/-- What a file says of a service depends on the lines alone, not on the descriptors that the
kernel returns. -/
theorem lastEntry_of_lines (hlines : lines'.map Prod.fst = lines.map Prod.fst)
    (key : String × ServType) : lastEntry lines' key = lastEntry lines key := by
  have hlast : ∀ l, lastEntry l key =
      ((l.map Prod.fst).reverse.map getMasterEnt).find? fun entry => entry.key = key := by
    simp [lastEntry, List.map_reverse, Function.comp_def]
  rw [hlast, hlines, ← hlast]

theorem InForce.of_lines (h : w.InForce lines) (hlines : lines'.map Prod.fst = lines.map Prod.fst) :
    w.InForce lines' := by
  have hkeys : ∀ l, lineKeys l = (l.map Prod.fst).map fun ent => (getMasterEnt ent).key := by
    simp [lineKeys]
  refine ⟨h.distinct, fun key => ?_, h.unmarked, fun s hs => ?_⟩
  · rw [hkeys, hlines, ← hkeys]
    exact h.keys key
  · rw [lastEntry_of_lines hlines]
    exact h.configured s hs

/-- The services of a file are its services as long as the list, the settings and the marks stay.
-/
theorem InForce.of_configured (h : w.InForce lines) (hhead : w'.masterHead = w.masterHead)
    (hconf : ∀ s, (w'.serv s).configured = (w.serv s).configured ∧
      (w'.serv s).flags.mark = (w.serv s).flags.mark) : w'.InForce lines := by
  have hkey : ∀ s, (w'.serv s).key = (w.serv s).key := fun s => congrArg Prod.fst (hconf s).1
  refine ⟨?_, fun key => ?_, fun s hs => ?_, fun s hs => ?_⟩
  · simpa only [hhead, hkey] using h.distinct
  · simpa only [hhead, hkey] using h.keys key
  · rw [(hconf s).2]
    exact h.unmarked s (hhead ▸ hs)
  · rw [hkey, (hconf s).1]
    exact h.configured s (hhead ▸ hs)

/-- A service is the one that is found for its key. -/
theorem InForce.firstOf (h : w.InForce lines) (hs : s ∈ w.masterHead) :
    w.firstOf (w.serv s).key = some s := by
  obtain ⟨t, ht⟩ := exists_firstOf hs
  obtain ⟨hmem, hkey⟩ := firstOf_some ht
  rwa [List.inj_on_of_nodup_map h.distinct hmem hs hkey] at ht

end World

/-- A service with the settings of its last line is configured as that line says. -/
theorem configured_of_settings {lines : List (MasterEnt × ServFds)} {serv : MasterServ}
    (h : (lastEntry lines serv.key).map MasterServ.settings = some serv.settings) :
    (lastEntry lines serv.key).map MasterServ.configured = some serv.configured := by
  obtain ⟨entry, hentry, hsettings⟩ := Option.map_eq_some_iff.1 h
  have hkey : entry.key = serv.key := by simpa using List.find?_some hentry
  rw [hentry]
  simp only [MasterServ.settings, Prod.mk.injEq] at hsettings
  simp [MasterServ.configured, hkey, hsettings]

/-- A reload leaves the services of its file. -/
theorem Conf.Refreshed.inForce {w : World} {lines : List (MasterEnt × ServFds)}
    {dead : List Waited} {c : Conf} (h : Conf.Refreshed w lines dead c) :
    c.world.InForce lines :=
  ⟨h.distinct, h.keys, h.unmarked, fun s hs => configured_of_settings (h.settings s hs)⟩

/-- A call that starts no service leaves the services of the file. -/
theorem World.InForce.call {m m' : Family} {op : MasterOp} {lines : List (MasterEnt × ServFds)}
    (h : m.world.InForce lines) (hm : m.Managed) (hst : reloadSystem.step m (.call op) m')
    (hstart : ∀ ent fds, op ≠ .start ent fds) :
    m'.world.InForce lines ∧ m'.world.masterHead = m.world.masterHead := by
  obtain ⟨⟨hallow, hker⟩, hexec, -⟩ := hst
  have hw := ok_of_map_some hexec
  have hhead := (masterExec_keeps hw hstart).head
  have hmoves : World.Moves (fun _ => True) True m.world m'.world :=
    masterExec_moves hm.account (fun s hs => (hm.head s hs).1) hallow hker (fun _ _ => trivial) hw
      hstart
  refine ⟨h.of_configured hhead fun t => ?_, hhead⟩
  exact hmoves.invariant (P := fun v => (v.serv t).configured = (m.world.serv t).configured ∧
      (v.serv t).flags.mark = (m.world.serv t).flags.mark)
    (fun v v' hmove hv => ⟨(hmove.configured t).1.trans hv.1, (hmove.configured t).2.trans hv.2⟩)
    ⟨rfl, rfl⟩

/-! ## Lines -/

/-- A line for a service that is on the list changes it in place. -/
theorem World.InPlace.ent {m m' : Family} {line : MasterEnt × ServFds} (hm : m.Managed)
    (hst : reloadSystem.step m (.entry line.1 line.2) m')
    (hfound : ∃ s, m.world.firstOf (getMasterEnt line.1).key = some s) :
    m.world.InPlace m'.world := by
  obtain ⟨hallow, hexec, -⟩ := hst
  obtain ⟨s, hs⟩ := hfound
  rcases masterConfigEnt_cases hallow (ok_of_map_some hexec) with
    ⟨hentry, -, -⟩ | ⟨t, -, -, hun, hw⟩
  · rw [entryOf_eq, hs] at hentry
    cases hentry
  have hup := masterConfigUpdate_ok hw
  refine ⟨?_, fun u => ?_, fun u hu => ?_⟩
  · have heq := hup.eq
    rwa [← hup.serv] at heq
  · rcases eq_or_ne u t with rfl | hne
    · rw [hup.serv_self]
      rfl
    · rw [hup.serv_of_ne hne]
  · exact hup.reg_listen hm.fds hun (hm.head u hu).2.le

/-- The lines for services that are on the list change them in place. -/
theorem World.InPlace.config {lines : List (MasterEnt × ServFds)} :
    ∀ {m : Family} {w' : World}, m.Managed → masterConfig m.world lines = .ok w' →
      ConfigFds lines m.world → (∀ key ∈ lineKeys lines, ∃ s, m.world.firstOf key = some s) →
        m.world.InPlace w' := by
  induction lines with
  | nil =>
    intro m w' _ hw _ _
    obtain rfl := Except.ok.inj hw
    exact .refl _
  | cons line lines ih =>
    intro m w' hm hw hfds hfound
    obtain ⟨v, hv, hw⟩ := bind_ok_iff.1 hw
    have hst : reloadSystem.step m (.entry line.1 line.2) ⟨v, m.kids⟩ :=
      ⟨hfds.1, bind_ok_iff.2 ⟨v, hv, rfl⟩, rfl⟩
    have hone := InPlace.ent hm hst (hfound _ (by simp [lineKeys]))
    refine hone.trans (ih (m := ⟨v, m.kids⟩) (hm.step hst).1 hw (hfds.2 v hv) fun key hkey => ?_)
    have hfirst := firstOf_congr hone.head (fun t _ => hone.key t) key
    rw [hfirst]
    exact hfound key (by simpa [lineKeys] using Or.inr hkey)

/-! ## The file -/

/-- Nothing is swept if nothing is marked. -/
theorem Conf.Swept.eq_of_unmarked {dead : ServPtr → List (List Waited)} {now : ℤ}
    {list gone : List ServPtr} {w w' : World} (h : Conf.Swept dead now list w gone w')
    (hmark : ∀ s ∈ list, (w.serv s).flags.mark = false) : gone = [] ∧ w' = w := by
  induction h with
  | done => exact ⟨rfl, rfl⟩
  | stop hs => simp [hmark] at hs
  | keep _ _ ih => exact ih fun s hs => hmark s (List.mem_cons_of_mem _ hs)

/-- A reload that stops no service marks them and reads the lines, and that is all. -/
theorem refresh_unstopped {m : Family} (hreach : reloadSystem.Reach m)
    {lines : List (MasterEnt × ServFds)} {links : Links ServPtr}
    (hlinks : links.Holds m.world.masterHead) (hfds : ConfigFds lines (masterMark m.world))
    {dead : ServPtr → List (List Waited)} {now : ℤ} {fuel : ℕ}
    (hfuel : m.world.masterHead.length + lines.length ≤ fuel) {c : Conf}
    (hrefresh : Conf.masterRefresh fuel ⟨m.world, links, []⟩ lines dead now = .ok (some c))
    (hunmarked : ∀ v, masterConfig (masterMark m.world) lines = .ok v →
      ∀ s ∈ v.masterHead, (v.serv s).flags.mark = false) :
    c.stopped = [] ∧ masterConfig (masterMark m.world) lines = .ok c.world ∧
      Conf.Refreshed m.world lines [] c ∧ reloadSystem.Reach ⟨c.world, m.kids⟩ := by
  obtain ⟨v, tr, hconfig, hread, hpath, -, hlinked, hswept⟩ :=
    swept_of_refresh hreach hlinks hfds hfuel hrefresh
  obtain ⟨hgone, rfl⟩ := hswept.eq_of_unmarked (hunmarked v hconfig)
  have hreach' := hreach.trans hpath
  have hnone : c.stopped = c.world.masterHead.filter fun s => (c.world.serv s).flags.mark := by
    rw [hgone, List.filter_eq_nil_iff.2 fun s hs => by simp [hunmarked _ hconfig s hs]]
  refine ⟨hgone, hconfig, ?_, hreach'⟩
  refine hread.refreshed hlinked hnone (Family.head_nodup_of_reach hreach') ?_
  rw [hgone]
  exact Without.refl _

/-- A reload of the file whose services there are changes them in place. -/
theorem World.InForce.refresh {m : Family} {lines lines' : List (MasterEnt × ServFds)}
    (h : m.world.InForce lines) (hreach : reloadSystem.Reach m)
    (hlines : lines'.map Prod.fst = lines.map Prod.fst) {links : Links ServPtr}
    (hlinks : links.Holds m.world.masterHead) (hfds : ConfigFds lines' (masterMark m.world))
    {dead : ServPtr → List (List Waited)} {now : ℤ} {fuel : ℕ}
    (hfuel : m.world.masterHead.length + lines'.length ≤ fuel) {c : Conf}
    (hrefresh : Conf.masterRefresh fuel ⟨m.world, links, []⟩ lines' dead now = .ok (some c)) :
    c.stopped = [] ∧ m.world.InPlace c.world ∧ c.world.InForce lines ∧
      (∀ s ∈ c.world.masterHead, (lastEntry lines (c.world.serv s).key).map MasterServ.settings =
        some (c.world.serv s).settings) ∧
      reloadSystem.Reach ⟨c.world, m.kids⟩ := by
  have hmanaged := Family.managed_of_reach hreach
  have hfresh : ∀ s ∈ m.world.masterHead, s < m.world.nextServ := fun s hs =>
    (hmanaged.head s hs).1
  have h' := h.of_lines hlines
  -- the mark and the lines change the services in place
  have hstep : reloadSystem.step m .mark ⟨masterMark m.world, m.kids⟩ := ⟨trivial, rfl, rfl⟩
  have hmark := inPlace_mark m.world
  have hplace : ∀ v, masterConfig (masterMark m.world) lines' = .ok v → m.world.InPlace v := by
    intro v hconfig
    refine hmark.trans (InPlace.config (m := ⟨masterMark m.world, m.kids⟩)
      (hmanaged.step hstep).1 hconfig hfds fun key hkey => ?_)
    have hfirst := firstOf_congr hmark.head (fun t _ => hmark.key t) key
    obtain ⟨s, hs, rfl⟩ := List.mem_map.1 ((h'.keys key).2 hkey)
    exact ⟨s, hfirst.trans (h'.firstOf hs)⟩
  -- every service has its line
  have hread : ∀ v, masterConfig (masterMark m.world) lines' = .ok v →
      (masterMark m.world).Read lines' v := fun v hconfig => by
    have hall := (read_mark m.world).config hfresh hfds hconfig
    rwa [List.nil_append] at hall
  have hunmarked : ∀ v, masterConfig (masterMark m.world) lines' = .ok v →
      ∀ s ∈ v.masterHead, (v.serv s).flags.mark = false := by
    intro v hconfig s hs
    rw [(hplace v hconfig).head] at hs
    have hkey := (h'.keys (m.world.serv s).key).1 (List.mem_map_of_mem hs)
    exact ((hread v hconfig).unmarked_iff hs).2 ⟨h'.firstOf hs, hkey⟩
  obtain ⟨hstopped, hconfig, hrefreshed, hreach'⟩ :=
    refresh_unstopped hreach hlinks hfds hfuel hrefresh hunmarked
  refine ⟨hstopped, hplace _ hconfig, hrefreshed.inForce.of_lines hlines.symm, fun s hs => ?_,
    hreach'⟩
  rw [lastEntry_of_lines hlines.symm]
  exact hrefreshed.settings s hs

/-! ## Runs -/

/-- A call that reaches the master, or a reload. -/
inductive RereadOp
  | call (op : MasterOp)
  | refresh

/-- One step while the file has the same lines. -/
inductive RereadStep (lines : List (MasterEnt × ServFds)) (m : Family) :
    RereadOp → Family → Prop
  | call {op : MasterOp} {m' : Family} (hstart : ∀ ent fds, op ≠ .start ent fds)
      (hst : reloadSystem.step m (.call op) m') : RereadStep lines m (.call op) m'
  | refresh {lines' : List (MasterEnt × ServFds)} {links : Links ServPtr}
      {dead : ServPtr → List (List Waited)} {now : ℤ} {fuel : ℕ} {c : Conf}
      (hlines : lines'.map Prod.fst = lines.map Prod.fst)
      (hlinks : links.Holds m.world.masterHead) (hfds : ConfigFds lines' (masterMark m.world))
      (hfuel : m.world.masterHead.length + lines'.length ≤ fuel)
      (hrefresh : Conf.masterRefresh fuel ⟨m.world, links, []⟩ lines' dead now = .ok (some c)) :
      RereadStep lines m .refresh ⟨c.world, m.kids⟩

/-- The master from a reload of the file on, while the file has the same lines. -/
def rereadSystem (lines : List (MasterEnt × ServFds)) : LTS Family RereadOp where
  init m := reloadSystem.Reach m ∧ ∃ w dead c, Conf.Refreshed w lines dead c ∧ c.world = m.world
  step := RereadStep lines

/-- The services are those of the file in every state of a run. -/
theorem inForce_of_run {lines : List (MasterEnt × ServFds)} {m : Family}
    {tr : List (Family × RereadOp × Family)} (hr : (rereadSystem lines).Run tr m) :
    (reloadSystem.Reach m ∧ m.world.InForce lines) ∧
      ∀ x ∈ tr, reloadSystem.Reach x.1 ∧ x.1.world.InForce lines := by
  have hinv := hr.invariant (P := fun m => reloadSystem.Reach m ∧ m.world.InForce lines)
    (fun m hm => ?_) fun m op m' hm hst => ?_
  · exact ⟨hinv.1, fun x hx => (hinv.2 x hx).1⟩
  · obtain ⟨hreach, w, dead, c, hrefreshed, heq⟩ := hm
    exact ⟨hreach, heq ▸ hrefreshed.inForce⟩
  · obtain ⟨hreach, hin⟩ := hm
    cases hst with
    | call hstart hst =>
      refine ⟨?_, (hin.call (Family.managed_of_reach hreach) hst hstart).1⟩
      obtain ⟨tr', m₀, hinit, hp⟩ := hreach
      exact ⟨_, m₀, hinit, hp.snoc hst⟩
    | refresh hlines hlinks hfds hfuel hrefresh =>
      obtain ⟨-, -, hin', -, hreach'⟩ := hin.refresh hreach hlines hlinks hfds hfuel hrefresh
      exact ⟨hreach', hin'⟩

/-- The daemon starts with a reload. -/
theorem init_of_first_refresh {ent : MasterEnt} {c : Conf}
    (hrefresh : Conf.masterRefresh 1 ⟨masterInit, ⟨none, fun _ => none⟩, []⟩ [(ent, smtpFds)]
      (fun _ => []) 0 = .ok (some c)) :
    masterExec masterInit (.start ent smtpFds) = .ok c.world ∧
      (rereadSystem [(ent, smtpFds)]).init ⟨c.world, ∅⟩ := by
  have hinit : reloadSystem.Reach ⟨masterInit, ∅⟩ := ⟨[], _, rfl, .nil⟩
  have hmark : masterMark masterInit = masterInit := by simp [masterMark, masterInit]
  have hfds : ConfigFds [(ent, smtpFds)] (masterMark masterInit) := by
    rw [hmark]
    exact ⟨smtpFds_unused, fun _ _ => trivial⟩
  have hlinks : Links.Holds (⟨none, fun _ => none⟩ : Links ServPtr) masterInit.masterHead := rfl
  have hstart : ∀ v, masterConfig (masterMark masterInit) [(ent, smtpFds)] = .ok v →
      masterExec masterInit (.start ent smtpFds) = .ok v := by
    intro v hv
    rw [hmark] at hv
    obtain ⟨u, hu, hv⟩ := bind_ok_iff.1 hv
    obtain rfl := Except.ok.inj hv
    exact hu
  obtain ⟨-, hconfig, hrefreshed, hreach⟩ := refresh_unstopped hinit hlinks hfds le_rfl hrefresh
    fun v hv s hs => by
      have hst := masterConfigNew_ok (hstart v hv) smtpFds_unused.read.2.2
      rw [hst.head] at hs
      obtain rfl := List.mem_singleton.1 hs
      rw [hst.serv_self]
      rfl
  exact ⟨hstart _ hconfig, hreach, _, _, c, hrefreshed, rfl⟩

end Nowra
