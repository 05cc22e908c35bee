import Nowra.ConfLines
import Nowra.Reread
import Nowra.SingleServer

/-!
# From the file to the child

What a line of the configuration file says gets to the process that is started for it. The lines of
the file are read as entries, a reload leaves each service with the entry of its last line,
`master_spawn` executes the path and the arguments that the service has at that time, and the
options of `single_server_main` are read from those arguments.

A name or an argument is the same text only if it is the same bytes (`EntLine.text_injective`). So
in every state after a reload the arguments of a service are read back as the service name, the
transport and the trailing arguments of one line of the file, the last one with the name, whatever
calls and further reloads there were (`launched_from_file`).
-/

namespace Nowra

open World

/-! ## Bytes as text -/

theorem EntLine.text_injective : Function.Injective EntLine.text := by
  have htoNat : ∀ c : BitVec 8, (Char.ofNat c.toNat).toNat = c.toNat := by
    intro c
    have hvalid : c.toNat.isValidChar := .inl (by have := c.isLt; omega)
    rw [Char.ofNat, dif_pos hvalid]
    rfl
  have hchar : Function.Injective fun c : BitVec 8 => Char.ofNat c.toNat := by
    intro c d hcd
    have hnat : (Char.ofNat c.toNat).toNat = (Char.ofNat d.toNat).toNat := congrArg Char.toNat hcd
    rw [htoNat, htoNat] at hnat
    exact BitVec.eq_of_toNat_eq hnat
  exact fun s t h => hchar.list_map (String.ofList_injective h)

/-! ## The last line of a name -/

/-- The `k`-th line with an entry gives `line`. -/
def EntryAt (before : ℕ → BitVec 8 × BitVec 8) (fp : Bytes) (k : ℕ) (line : EntLine) : Prop :=
  ∃ raw, (entryLines fp)[k]? = some raw ∧ lineEnt (before k) raw = .ok line

/-- It is the last one with its name. -/
structure LastLine (before : ℕ → BitVec 8 × BitVec 8) (fp : Bytes) (k : ℕ) (line : EntLine) :
    Prop where
  entry : EntryAt before fp k line
  last : ∀ k' line', k < k' → EntryAt before fp k' line' → line'.name ≠ line.name

theorem EntsOf.getElem?_iff {before : ℕ → BitVec 8 × BitVec 8} {lines : List Bytes} :
    ∀ {i : ℕ} {ents : List EntLine}, EntsOf before i lines ents → ∀ {k : ℕ} {line : EntLine},
      ents[k]? = some line ↔
        ∃ raw, lines[k]? = some raw ∧ lineEnt (before (i + k)) raw = .ok line := by
  induction lines with
  | nil =>
    intro i ents h k line
    obtain rfl := entsOf_nil.1 h
    simp
  | cons raw lines ih =>
    intro i ents h k line
    cases ents with
    | nil => cases h.length_eq
    | cons ent ents =>
      obtain ⟨hent, hents⟩ := entsOf_cons.1 h
      cases k with
      | zero => simp [hent]
      | succ k =>
        rw [List.getElem?_cons_succ, List.getElem?_cons_succ, ih hents, Nat.add_right_comm,
          Nat.add_assoc]

/-- An entry that is the last one with a key is that of a line. -/
theorem exists_of_lastEntry {lines : List (MasterEnt × ServFds)} {key : String × ServType}
    {entry : MasterServ} (h : lastEntry lines key = some entry) :
    ∃ (k : ℕ) (line : MasterEnt × ServFds), lines[k]? = some line ∧
      getMasterEnt line.1 = entry ∧ entry.key = key ∧
      ∀ (k' : ℕ) (line' : MasterEnt × ServFds), k < k' → lines[k']? = some line' →
        (getMasterEnt line'.1).key ≠ key := by
  induction lines using List.reverseRecOn with
  | nil => cases h
  | append_singleton lines line ih =>
    rw [lastEntry_snoc] at h
    split at h
    · rename_i hkey
      obtain rfl := Option.some.inj h
      refine ⟨lines.length, line, by simp, rfl, hkey, fun k' line' hk hline' => ?_⟩
      have hlt := (List.getElem?_eq_some_iff.1 hline').1
      rw [List.length_append, List.length_singleton] at hlt
      omega
    · rename_i hkey
      obtain ⟨k, line', hline', hentry, hkey', hlast⟩ := ih h
      have hlt := (List.getElem?_eq_some_iff.1 hline').1
      refine ⟨k, line', (List.getElem?_append_left hlt).trans hline', hentry, hkey',
        fun k' line'' hk hline'' => ?_⟩
      rcases Nat.lt_or_ge k' lines.length with hlt' | hge
      · exact hlast k' line'' hk ((List.getElem?_append_left hlt').symm.trans hline'')
      · rw [List.getElem?_append_right hge] at hline''
        obtain rfl := List.mem_singleton.1 (List.mem_of_getElem? hline'')
        exact hkey

/-! ## From the file to the child -/

/-- Lines that fit are the entries. -/
theorem entsOf_of_reads {before : ℕ → BitVec 8 × BitVec 8} {fp : Bytes} (h0 : 0 ∉ fp)
    (hfits : ∀ line ∈ confLines fp, LineFits line) {ents : List EntLine}
    (hread : ReadsEnts before 0 fp ents) : EntsOf before 0 (entryLines fp) ents :=
  (entsOf_congr (forall₂_linePieces_lines (fun _ hline hm => h0 (mem_of_mem_confLines hline hm))
    hfits)).1 ((readsEnts_iff_linePieces h0).1 hread)

/-- The entries of a file were accepted. -/
theorem ReadsEnts.accepted {before : ℕ → BitVec 8 × BitVec 8} {i : ℕ} {fp : Bytes}
    {ents : List EntLine} (h : ReadsEnts before i fp ents) : ∀ ent ∈ ents, ent.Accepted := by
  induction h with
  | done => simp
  | more h hrest ih => exact List.forall_mem_cons.2 ⟨⟨_, _, _, h⟩, ih⟩

/-- The process that is started for a service is given the arguments that the line makes, the only
ones with the text that the service has, and reads its name and transport from them before it gets
to the trailing ones. -/
structure Launches (serv : MasterServ) (line : EntLine) : Prop where
  path : serv.path = EntLine.text line.path
  argv : ∃! argv : List Bytes, argv.map EntLine.text = serv.args
  reads : ∀ argv : List Bytes, argv.map EntLine.text = serv.args →
    ∃ n pre, argv = pre ++ line.args ∧ argv.head? = some line.command ∧
      ServerReads argv n ⟨basename (argv.headD []), none⟩ 1 ⟨line.name, some masterXportNameInet⟩
        pre.length

theorem launches_of_entry {serv : MasterServ} {line : EntLine} (hline : line.Accepted)
    (hpath : serv.path = line.toEnt.path) (hargs : serv.args = line.toEnt.args) :
    Launches serv line := by
  have hunique : ∀ argv : List Bytes, argv.map EntLine.text = serv.args → argv = line.masterArgs :=
    fun argv hargv => EntLine.text_injective.list_map (hargv.trans hargs)
  refine ⟨hpath, ⟨line.masterArgs, hargs.symm, hunique⟩, fun argv hargv => ?_⟩
  obtain rfl := hunique argv hargv
  obtain ⟨n, pre, -, hsplit, hreads⟩ := serverReads_masterArgs line
  rw [hline.fields.2.1] at hreads
  exact ⟨n, pre, hsplit, by simp [EntLine.masterArgs], by simpa [EntLine.masterArgs] using hreads⟩

/-- From a reload on, whatever calls and further reloads of the file there are, the services are
those that the lines of the file name, and each launches the last line with its name. -/
theorem launched_from_file {before : ℕ → BitVec 8 × BitVec 8} {fp : Bytes} (h0 : 0 ∉ fp)
    (hfits : ∀ line ∈ confLines fp, LineFits line) {lines : List (EntLine × ServFds)}
    (hread : ReadsEnts before 0 fp (lines.map Prod.fst)) {m : Family}
    {tr : List (Family × RereadOp × Family)}
    (hr : (rereadSystem (lines.map fun x => (x.1.toEnt, x.2))).Run tr m) :
    (∀ k line, EntryAt before fp k line →
      ∃ s ∈ m.world.masterHead, (m.world.serv s).name = EntLine.text line.name) ∧
    ∀ s ∈ m.world.masterHead, ∃ k line, LastLine before fp k line ∧
      (m.world.serv s).name = EntLine.text line.name ∧
      (m.world.serv s).maxProc = line.maxProc ∧ (m.world.serv s).wakeupTime = line.wakeupTime ∧
      Launches (m.world.serv s) line := by
  have hin := (inForce_of_run hr).1.2
  have hents := entsOf_of_reads h0 hfits hread
  have hentry : ∀ k line, EntryAt before fp k line ↔
      ∃ fds, lines[k]? = some (line, fds) := by
    intro k line
    have hiff := @EntsOf.getElem?_iff before _ 0 _ hents k line
    rw [Nat.zero_add] at hiff
    refine hiff.symm.trans ?_
    simp [List.getElem?_map]
  constructor
  · intro k line hline
    obtain ⟨fds, hget⟩ := (hentry k line).1 hline
    have hmem : (getMasterEnt line.toEnt).key ∈
        lineKeys (lines.map fun x => (x.1.toEnt, x.2)) := by
      rw [lineKeys, List.map_map]
      exact List.mem_map_of_mem (List.mem_of_getElem? hget)
    obtain ⟨s, hs, hkey⟩ := List.mem_map.1 ((hin.keys _).2 hmem)
    exact ⟨s, hs, (Prod.mk.inj hkey).1⟩
  · intro s hs
    obtain ⟨entry, hlast, hconf⟩ := Option.map_eq_some_iff.1 (hin.configured s hs)
    obtain ⟨k, x, hget, hentryx, hkey, hlater⟩ := exists_of_lastEntry hlast
    rw [List.getElem?_map] at hget
    obtain ⟨⟨line, fds⟩, hline, rfl⟩ := Option.map_eq_some_iff.1 hget
    subst hentryx
    simp only [MasterServ.configured, Prod.mk.injEq] at hconf
    obtain ⟨hkey', hwakeup, hmax, -, hpath, hargs⟩ := hconf
    refine ⟨k, line, ⟨(hentry k line).2 ⟨fds, hline⟩, fun k' line' hk hline' hname => ?_⟩,
      (Prod.mk.inj hkey').1.symm, hmax.symm, hwakeup.symm, ?_⟩
    · obtain ⟨fds', hget'⟩ := (hentry k' line').1 hline'
      refine hlater k' (line'.toEnt, fds') hk (by rw [List.getElem?_map, hget']; rfl) ?_
      rw [← hkey]
      exact Prod.ext (congrArg EntLine.text hname) rfl
    · have hmem : line ∈ lines.map Prod.fst :=
        List.mem_map.2 ⟨(line, fds), List.mem_of_getElem? hline, rfl⟩
      exact launches_of_entry (hread.accepted line hmem) hpath.symm hargs.symm

/-- A comment and a line for `smtp`, whose process has a trailing argument that looks like an
option. -/
def smtpConf : Bytes := cstr "# services\nsmtp inet 0 1 smtpd -v\n"

/-- The file is read at the start, and a process is started for `smtp`. -/
theorem launched_from_file_smtp : ∃ lines m tr, (rereadSystem lines).Run tr m ∧
    tr.map (fun x => x.2.1) = [.call (.availEvent 0 (some 100) 1000)] ∧
    m.world.masterHead = [0] ∧ (m.world.serv 0).totalProc = 1 ∧
    ∃ k line, LastLine (fun _ => (0, 0)) smtpConf k line ∧ line.args = [cstr "-v"] ∧
      (m.world.serv 0).name = EntLine.text (cstr "smtp") ∧ Launches (m.world.serv 0) line := by
  have hrun : (readMasterEnt (0, 0) smtpConf).toOption.join.any (fun r => r.2 = [] ∧
      r.1.name = cstr "smtp" ∧ r.1.args = [cstr "-v"] ∧
      (Conf.masterRefresh 1 ⟨masterInit, ⟨none, fun _ => none⟩, []⟩ [(r.1.toEnt, smtpFds)]
        (fun _ => []) 0).toOption.join.any fun c => c.world.masterHead = [0] ∧
          (familyCall ⟨c.world, ∅⟩ (.availEvent 0 (some 100) 1000)).any fun m =>
            (m.world.serv 0).totalProc = 1) = true := by
    decide +kernel
  obtain ⟨⟨line, fp'⟩, hent, hrun⟩ := (Option.any_eq_true _ _).1 hrun
  obtain ⟨rfl, hname, hargs, hrun⟩ := of_decide_eq_true hrun
  obtain ⟨c, hc, hrun⟩ := (Option.any_eq_true _ _).1 hrun
  obtain ⟨hhead, hrun⟩ := of_decide_eq_true hrun
  obtain ⟨m, hm, hrun⟩ := (Option.any_eq_true _ _).1 hrun
  have htotal := of_decide_eq_true hrun
  -- the file
  have hread : ReadsEnts (fun _ => (0, 0)) 0 smtpConf ([(line, smtpFds)].map Prod.fst) :=
    .more (toOption_eq_some (Option.join_eq_some_iff.1 hent)) (.done rfl)
  have hlines : confLines smtpConf = [cstr "# services", cstr "smtp inet 0 1 smtpd -v", []] := by
    decide +kernel
  have hfits : ∀ l ∈ confLines smtpConf, LineFits l := by
    rw [hlines]
    have hlen : ∀ l ∈ [cstr "# services", cstr "smtp inet 0 1 smtpd -v", []],
        l.length ≤ 1023 := by
      decide
    exact fun l hl => lineFits_of_length_le (hlen l hl)
  -- the run
  obtain ⟨-, hinit⟩ := init_of_first_refresh (toOption_eq_some (Option.join_eq_some_iff.1 hc))
  obtain ⟨hallow, hker, hexec, hkids⟩ := step_of_familyCall hm
  have hcall : RereadStep [(line.toEnt, smtpFds)] ⟨c.world, ∅⟩
      (.call (.availEvent 0 (some 100) 1000)) m :=
    .call (by simp) ⟨⟨hallow, hker⟩, bind_ok_iff.2 ⟨_, hexec, rfl⟩, hkids⟩
  have hr : (rereadSystem [(line.toEnt, smtpFds)]).Run _ m := ⟨_, hinit, .single hcall⟩
  have hheadm : m.world.masterHead = [0] := (familyCall_keeps hm).head.trans hhead
  have h0 : 0 ∉ smtpConf := by decide +kernel
  obtain ⟨-, hall⟩ := launched_from_file h0 hfits hread hr
  obtain ⟨k, line', hlast, hname', -, -, hlaunch⟩ :=
    hall 0 (by rw [hheadm]; exact List.mem_cons_self)
  -- there is one line only
  obtain rfl : line' = line := by
    obtain ⟨raw, hraw, hent'⟩ := hlast.entry
    have hget := (entsOf_of_reads h0 hfits hread).getElem?_iff.2
      ⟨raw, hraw, (Nat.zero_add k).symm ▸ hent'⟩
    exact List.mem_singleton.1 (List.mem_of_getElem? hget)
  exact ⟨_, m, _, hr, rfl, hheadm, htotal, k, line', hlast, hargs, by rw [hname', hname], hlaunch⟩

end Nowra
