import Nowra.Reload
import Nowra.Slist

/-!
# The service list

`master_conf.c` on the linked list of services : the loop that marks them, the search for the entry
of a line, and the loop that takes the marked ones out at the cursor `servp` while it stops them.
The loops have fuel, and return nothing without it.

`Conf.masterRefresh_spec` says that a reload on the links is one on the list of the services
(`masterRefresh`), and that it does end : the fuel it needs is the number of services and lines.
-/

namespace Nowra

/-- The master's memory, with the links of the services. The loops read the links, and
`World.masterHead` goes with them. -/
structure Conf where
  world : World
  links : Links ServPtr
  /-- The services that `master_stop_service` was called for. -/
  stopped : List ServPtr

namespace Conf

/-- Mark the services behind a link. -/
def markLoop (links : Links ServPtr) : ℕ → Option ServPtr → World → Option World
  | _, none, w => some w
  | 0, some _, _ => none
  | fuel + 1, some s, w => markLoop links fuel (links.next s) (w.updServ s fun serv =>
      { serv with flags := { serv.flags with mark := true } })

/-- The first service behind a link that has the name and the type of an entry. -/
def findLoop (links : Links ServPtr) (w : World) (entry : MasterServ) :
    ℕ → Option ServPtr → Option (Option ServPtr)
  | _, none => some none
  | 0, some _ => none
  | fuel + 1, some s =>
    if (w.serv s).name = entry.name ∧ (w.serv s).type = entry.type then some (some s)
    else findLoop links w entry fuel (links.next s)

/-- One turn of the loop of `master_config`. -/
def masterConfigEnt (fuel : ℕ) (c : Conf) (line : MasterEnt × ServFds) :
    Except Panic (Option Conf) :=
  match findLoop c.links c.world (getMasterEnt line.1) fuel c.links.head with
  | none => pure none
  | some none => do
    let w ← masterConfigNew c.world line.1 line.2
    pure (some { c with world := w, links := c.links.push c.world.nextServ })
  | some (some s) => do
    let w ← masterConfigUpdate c.world s line.1 line.2.status
    pure (some { c with world := w })

/-- Read the configuration file. -/
def masterConfig (fuel : ℕ) : List (MasterEnt × ServFds) → Conf → Except Panic (Option Conf)
  | [], c => pure (some c)
  | line :: lines, c => do
    match ← masterConfigEnt fuel c line with
    | none => pure none
    | some c => masterConfig fuel lines c

/-- Delete the marked services from the cursor on. -/
def sweepLoop (dead : ServPtr → List (List Waited)) (now : ℤ) :
    ℕ → LinkPlace ServPtr → Conf → Except Panic (Option Conf)
  | fuel, servp, c =>
    match c.links.get servp, fuel with
    | none, _ => pure (some c)
    | some _, 0 => pure none
    | some s, fuel + 1 =>
      if (c.world.serv s).flags.mark then do
        match ← masterRemove c.world s (dead s) now with
        | none => pure none
        | some w =>
          sweepLoop dead now fuel servp
            ⟨w, c.links.set (c.links.next s) servp, c.stopped ++ [s]⟩
      else sweepLoop dead now fuel (.next s) c

/-- Re-read the configuration table. -/
def masterRefresh (fuel : ℕ) (c : Conf) (lines : List (MasterEnt × ServFds))
    (dead : ServPtr → List (List Waited)) (now : ℤ) : Except Panic (Option Conf) :=
  match markLoop c.links fuel c.links.head c.world with
  | none => pure none
  | some w => do
    match ← masterConfig fuel lines { c with world := w } with
    | none => pure none
    | some c => sweepLoop dead now fuel .head c

/-! ## The links and the list -/

/-- Two calls panic alike, do not end alike, or return the same world, with `P` of the links. -/
inductive Agree (P : Conf → Prop) : Except Panic (Option World) → Except Panic (Option Conf) → Prop
  | panics (e : Panic) : Agree P (.error e) (.error e)
  | stuck : Agree P (.ok none) (.ok none)
  | returns {c : Conf} (h : P c) : Agree P (.ok (some c.world)) (.ok (some c))

theorem Agree.mono {P Q : Conf → Prop} {x : Except Panic (Option World)}
    {y : Except Panic (Option Conf)} (h : Agree P x y) (hPQ : ∀ c, P c → Q c) : Agree Q x y := by
  cases h with
  | panics e => exact .panics e
  | stuck => exact .stuck
  | returns h => exact .returns (hPQ _ h)

theorem Agree.of_returns {P : Conf → Prop} {x : Except Panic (Option World)} {c : Conf}
    (h : Agree P x (.ok (some c))) : P c := by
  cases h with
  | returns h => exact h

/-- The world is the one that the first call returns. -/
theorem Agree.result {P : Conf → Prop} {x : Except Panic (Option World)}
    {y : Except Panic (Option Conf)} (h : Agree P x y) :
    Agree (fun c => P c ∧ x = .ok (some c.world)) x y := by
  cases h with
  | panics e => exact .panics e
  | stuck => exact .stuck
  | returns h => exact .returns ⟨h, rfl⟩

/-- Calls that agree are followed by calls that agree. -/
theorem Agree.bind {P Q : Conf → Prop} {x : Except Panic (Option World)}
    {y : Except Panic (Option Conf)} {f : World → Except Panic (Option World)}
    {g : Conf → Except Panic (Option Conf)} (h : Agree P x y)
    (hfg : ∀ c, P c → Agree Q (f c.world) (g c)) :
    Agree Q (x >>= fun o => match o with
      | none => pure none
      | some w => f w) (y >>= fun o => match o with
      | none => pure none
      | some c => g c) := by
  cases h with
  | panics e => exact .panics e
  | stuck => exact .stuck
  | returns h => exact hfg _ h

/-- The links are those of the list of services, each of which is on it once. -/
structure Linked (c : Conf) : Prop where
  holds : c.links.Holds c.world.masterHead
  nodup : c.world.masterHead.Nodup
  fresh : ∀ s ∈ c.world.masterHead, s < c.world.nextServ

variable {links : Links ServPtr} {w : World} {c : Conf}

theorem markLoop_eq : ∀ {as : List ServPtr} {link : Option ServPtr} {fuel : ℕ} {w : World},
    links.Chain link as → as.length ≤ fuel → markLoop links fuel link w =
      some { w with serv := fun s => if s ∈ as then
        { w.serv s with flags := { (w.serv s).flags with mark := true } } else w.serv s }
  | [], _, fuel, w, rfl, _ => by
    cases fuel <;> simp [markLoop]
  | a :: as, _, 0, _, _, hfuel => by simp at hfuel
  | a :: as, _, fuel + 1, w, ⟨rfl, h⟩, hfuel => by
    have hrest := markLoop_eq (w := w.updServ a fun serv =>
      { serv with flags := { serv.flags with mark := true } }) h (by simpa using hfuel)
    rw [markLoop, hrest]
    congr 2
    funext s
    rcases eq_or_ne s a with rfl | hs
    · by_cases hmem : s ∈ as <;> simp [World.updServ, hmem]
    · by_cases hmem : s ∈ as <;> simp [World.updServ, hmem, hs]

theorem findLoop_eq (entry : MasterServ) : ∀ {as : List ServPtr} {link : Option ServPtr}
    {fuel : ℕ}, links.Chain link as → as.length ≤ fuel →
      findLoop links w entry fuel link = some (as.find? fun s =>
        (w.serv s).name = entry.name ∧ (w.serv s).type = entry.type)
  | [], _, fuel, rfl, _ => by cases fuel <;> rfl
  | a :: as, _, 0, _, hfuel => by simp at hfuel
  | a :: as, _, fuel + 1, ⟨rfl, h⟩, hfuel => by
    have hfuel' : as.length ≤ fuel := by simpa using hfuel
    have hrest := findLoop_eq entry h hfuel'
    rw [findLoop, hrest]
    by_cases hsame : (w.serv a).name = entry.name ∧ (w.serv a).type = entry.type
    · rw [if_pos hsame]
      simp [hsame]
    · rw [if_neg hsame]
      simp [hsame]

/-- The search finds the service on the list. -/
theorem Linked.find (h : c.Linked) {fuel : ℕ} (hfuel : c.world.masterHead.length ≤ fuel)
    (ent : MasterEnt) : findLoop c.links c.world (getMasterEnt ent) fuel c.links.head =
      some (c.world.entryOf ent) :=
  findLoop_eq _ h.holds hfuel

end Conf

/-- A new service is in front of the list. -/
theorem masterConfigNew_head {w w' : World} {ent : MasterEnt} {fds : ServFds}
    (h : masterConfigNew w ent fds = .ok w') :
    w'.masterHead = w.nextServ :: w.masterHead ∧ w'.nextServ = w.nextServ + 1 := by
  simp only [masterConfigNew, masterStartService] at h
  obtain ⟨v, hv, hst⟩ := bind_ok_iff.1 h
  have honly := (masterAvailListen_ok hv).only
  obtain ⟨-, -, -, heq, -⟩ := masterStatusInit_ok hst
  exact ⟨(congrArg World.masterHead heq :).trans honly.head,
    (congrArg World.nextServ heq :).trans honly.nextServ⟩

/-- Only the service that is removed leaves the list. -/
theorem masterRemove_head {w w' : World} {s : ServPtr} {dead : List (List Waited)} {now : ℤ}
    (h : masterRemove w s dead now = .ok (some w')) :
    w'.masterHead = w.masterHead.filter (· ≠ s) ∧ w'.nextServ = w.nextServ := by
  obtain ⟨v, t, u, r, hv, ht, hwhile, hr, hsil⟩ := masterStopService_ok h
  obtain ⟨n, -, -, hu, -⟩ := masterReapWhile_take hwhile
  have heqv := (masterStatusCleanup_ok hv).1
  have hacts : v.ActsAll r := (masterThrottle_acts ht).all.trans
    ((masterReapChild_acts hu).trans (masterUnthrottle_acts hr).all)
  exact ⟨((congrArg World.masterHead hsil.eq :).trans hacts.head).trans
      (congrArg World.masterHead heqv :),
    ((congrArg World.nextServ hsil.eq :).trans hacts.nextServ).trans
      (congrArg World.nextServ heqv :)⟩

namespace Conf

/-! ## The lines of the file -/

/-- A turn of the loop does to the links what it does to the list. -/
theorem Linked.configEnt {c : Conf} (h : c.Linked) {fuel : ℕ}
    (hfuel : c.world.masterHead.length ≤ fuel) (line : MasterEnt × ServFds) :
    Agree (fun c' => c'.Linked ∧ c'.stopped = c.stopped ∧
        c'.world.masterHead.length ≤ c.world.masterHead.length + 1)
      (some <$> Nowra.masterConfigEnt c.world line) (c.masterConfigEnt fuel line) := by
  rw [masterConfigEnt, h.find hfuel, masterConfigEnt_eq]
  cases hentry : c.world.entryOf line.1 with
  | none =>
    cases hw : masterConfigNew c.world line.1 line.2 with
    | error e =>
      exact .panics e
    | ok w =>
      obtain ⟨hhead, hnext⟩ := masterConfigNew_head hw
      have hnew : c.world.nextServ ∉ c.world.masterHead := fun hmem =>
        lt_irrefl _ (h.fresh _ hmem)
      refine .returns (c := { c with world := w, links := c.links.push c.world.nextServ })
        ⟨⟨?_, ?_, fun s hs => ?_⟩, rfl, by simp [hhead]⟩
      · rw [hhead]
        exact h.holds.push hnew
      · rw [hhead]
        exact List.nodup_cons.2 ⟨hnew, h.nodup⟩
      · rw [hhead] at hs
        rw [hnext]
        rcases List.mem_cons.1 hs with rfl | hs
        · exact Nat.lt_succ_self _
        · exact (h.fresh s hs).trans (Nat.lt_succ_self _)
  | some s =>
    cases hw : masterConfigUpdate c.world s line.1 line.2.status with
    | error e =>
      simp only [hw]
      exact .panics e
    | ok w =>
      simp only [hw]
      have hup := masterConfigUpdate_ok hw
      refine .returns (c := { c with world := w }) ⟨⟨?_, ?_, ?_⟩, rfl, by simp [hup.head]⟩
      · rw [hup.head]
        exact h.holds
      · rw [hup.head]
        exact h.nodup
      · rw [hup.head, hup.nextServ]
        exact h.fresh

/-- The file is read on the links as on the list. -/
theorem Linked.config {lines : List (MasterEnt × ServFds)} : ∀ {c : Conf} {fuel : ℕ}, c.Linked →
    c.world.masterHead.length + lines.length ≤ fuel →
      Agree (fun c' => c'.Linked ∧ c'.stopped = c.stopped ∧
          c'.world.masterHead.length ≤ c.world.masterHead.length + lines.length)
        (some <$> Nowra.masterConfig c.world lines) (c.masterConfig fuel lines) := by
  induction lines with
  | nil => exact fun h _ => .returns ⟨h, rfl, le_rfl⟩
  | cons line lines ih =>
    intro c fuel h hfuel
    rw [List.length_cons] at hfuel
    have hbind : some <$> Nowra.masterConfig c.world (line :: lines) =
        (some <$> Nowra.masterConfigEnt c.world line) >>= fun o => match o with
          | none => pure none
          | some w => some <$> Nowra.masterConfig w lines := by
      rw [Nowra.masterConfig, List.foldlM_cons]
      cases Nowra.masterConfigEnt c.world line <;> rfl
    rw [hbind]
    have hlen : c.world.masterHead.length ≤ fuel := by omega
    refine (h.configEnt hlen line).bind fun c' hc' => ?_
    obtain ⟨hlinked, hstopped, hlen'⟩ := hc'
    refine (ih hlinked (by omega)).mono fun c'' hc'' => ?_
    obtain ⟨hlinked', hstopped', hlen''⟩ := hc''
    exact ⟨hlinked', hstopped'.trans hstopped, by rw [List.length_cons]; omega⟩

/-! ## The sweep -/

/-- The marked services of a list are removed, one after another. -/
inductive Swept (dead : ServPtr → List (List Waited)) (now : ℤ) :
    List ServPtr → World → List ServPtr → World → Prop
  | done {w : World} : Swept dead now [] w [] w
  | stop {s : ServPtr} {list gone : List ServPtr} {w v w' : World}
      (hmark : (w.serv s).flags.mark = true)
      (hv : masterRemove w s (dead s) now = .ok (some v)) (h : Swept dead now list v gone w') :
      Swept dead now (s :: list) w (s :: gone) w'
  | keep {s : ServPtr} {list gone : List ServPtr} {w w' : World}
      (hmark : (w.serv s).flags.mark = false) (h : Swept dead now list w gone w') :
      Swept dead now (s :: list) w gone w'

theorem sweepLoop_end {dead : ServPtr → List (List Waited)} {now : ℤ} {fuel : ℕ}
    {servp : LinkPlace ServPtr} (h : c.links.get servp = none) :
    sweepLoop dead now fuel servp c = pure (some c) := by
  unfold sweepLoop
  simp only [h]

theorem sweepLoop_stop {dead : ServPtr → List (List Waited)} {now : ℤ} {fuel : ℕ}
    {servp : LinkPlace ServPtr} {s : ServPtr} (h : c.links.get servp = some s)
    (hmark : (c.world.serv s).flags.mark = true) :
    sweepLoop dead now (fuel + 1) servp c = (do
      match ← masterRemove c.world s (dead s) now with
      | none => pure none
      | some w =>
        sweepLoop dead now fuel servp
          ⟨w, c.links.set (c.links.next s) servp, c.stopped ++ [s]⟩) := by
  rw [sweepLoop.eq_def]
  simp only [h, hmark, if_true]

theorem sweepLoop_keep {dead : ServPtr → List (List Waited)} {now : ℤ} {fuel : ℕ}
    {servp : LinkPlace ServPtr} {s : ServPtr} (h : c.links.get servp = some s)
    (hmark : ¬(c.world.serv s).flags.mark = true) :
    sweepLoop dead now (fuel + 1) servp c = sweepLoop dead now fuel (.next s) c := by
  rw [sweepLoop.eq_def]
  simp only [h, if_neg hmark]

/-- The cursor goes through the list, behind the services that stay. -/
theorem Linked.sweep {dead : ServPtr → List (List Waited)} {now : ℤ} {list : List ServPtr} :
    ∀ {c : Conf} {pre : List ServPtr} {fuel : ℕ}, c.Linked → c.world.masterHead = pre ++ list →
      list.length ≤ fuel →
        Agree (fun c' => c'.Linked ∧ ∃ gone, c'.stopped = c.stopped ++ gone ∧
            Swept dead now list c.world gone c'.world)
          (Nowra.masterSweep dead now list c.world)
          (sweepLoop dead now fuel (Links.placeAfter pre) c) := by
  induction list with
  | nil =>
    intro c pre fuel h hlist _
    have hholds := h.holds
    rw [hlist, List.append_nil] at hholds
    rw [sweepLoop_end hholds.get_end]
    exact .returns ⟨h, [], by simp, .done⟩
  | cons s list ih =>
    intro c pre fuel h hlist hfuel
    obtain ⟨fuel, rfl⟩ : ∃ n, fuel = n + 1 := ⟨fuel - 1, by simp at hfuel; omega⟩
    rw [List.length_cons, Nat.add_le_add_iff_right] at hfuel
    have hholds := h.holds
    have hnd := h.nodup
    rw [hlist] at hholds hnd
    by_cases hmark : (c.world.serv s).flags.mark = true
    · rw [sweepLoop_stop hholds.get hmark, Nowra.masterSweep, if_pos hmark]
      cases hw : masterRemove c.world s (dead s) now with
      | error e => exact .panics e
      | ok o =>
        cases o with
        | none => exact .stuck
        | some w =>
          -- the service is taken out behind the services that stay
          obtain ⟨hhead, hnext⟩ := masterRemove_head hw
          have hmid := List.nodup_middle.1 hnd
          have hrest : w.masterHead = pre ++ list := by
            rw [hhead, hlist, List.filter_append, List.filter_cons_of_neg (by simp),
              ← List.filter_append, List.filter_eq_self]
            intro t ht
            simpa using ne_of_mem_of_not_mem ht (List.nodup_cons.1 hmid).1
          have hlinked : Linked ⟨w, c.links.set (c.links.next s) (Links.placeAfter pre),
              c.stopped ++ [s]⟩ := by
            refine ⟨?_, ?_, fun t ht => ?_⟩
            · rw [hrest]
              exact hholds.unlink hnd
            · rw [hrest]
              exact (List.nodup_cons.1 hmid).2
            · rw [hhead] at ht
              rw [hnext]
              exact h.fresh t (List.mem_of_mem_filter ht)
          refine (ih hlinked hrest hfuel).mono fun c' hc' => ?_
          obtain ⟨hlinked', gone, hstopped, hswept⟩ := hc'
          exact ⟨hlinked', s :: gone, by rw [hstopped]; simp, .stop hmark hw hswept⟩
    · rw [sweepLoop_keep hholds.get hmark, Nowra.masterSweep, if_neg hmark,
        ← Links.placeAfter_snoc pre s]
      refine (ih h (by simp [hlist]) hfuel).mono fun c' hc' => ?_
      obtain ⟨hlinked', gone, hstopped, hswept⟩ := hc'
      exact ⟨hlinked', gone, hstopped, .keep (by simpa using hmark) hswept⟩

/-- The marks, from the head on. -/
theorem Linked.mark {c : Conf} (h : c.Linked) {fuel : ℕ}
    (hfuel : c.world.masterHead.length ≤ fuel) :
    markLoop c.links fuel c.links.head c.world = some (masterMark c.world) ∧
      Linked { c with world := masterMark c.world } :=
  ⟨markLoop_eq h.holds hfuel, h.holds, h.nodup, h.fresh⟩

/-- A reload on the links is one on the list of the services, and it stops the services that are
marked when the file was read. -/
theorem masterRefresh_spec {c : Conf} (h : c.Linked) {lines : List (MasterEnt × ServFds)}
    {dead : ServPtr → List (List Waited)} {now : ℤ} {fuel : ℕ}
    (hfuel : c.world.masterHead.length + lines.length ≤ fuel) :
    Agree (fun c' => c'.Linked ∧ ∃ gone v, c'.stopped = c.stopped ++ gone ∧
        Nowra.masterConfig (masterMark c.world) lines = .ok v ∧
        Swept dead now v.masterHead v gone c'.world)
      (Nowra.masterRefresh c.world lines dead now) (c.masterRefresh fuel lines dead now) := by
  have hhead : c.world.masterHead.length ≤ fuel := by omega
  obtain ⟨hmark, hlinked⟩ := h.mark hhead
  rw [masterRefresh, hmark]
  have hbind : Nowra.masterRefresh c.world lines dead now =
      (some <$> Nowra.masterConfig (masterMark c.world) lines) >>= fun o => match o with
        | none => pure none
        | some w => Nowra.masterSweep dead now w.masterHead w := by
    rw [Nowra.masterRefresh]
    cases Nowra.masterConfig (masterMark c.world) lines <;> rfl
  rw [hbind]
  refine (hlinked.config hfuel).result.bind fun v hv => ?_
  obtain ⟨⟨hv, hstopped, hlen⟩, hconf⟩ := hv
  have hw := ok_of_map_some hconf
  have hfuel' : v.world.masterHead.length ≤ fuel := hlen.trans hfuel
  have hlist : v.world.masterHead = [] ++ v.world.masterHead := rfl
  refine (hv.sweep hlist hfuel').mono fun c' hc' => ?_
  obtain ⟨hlinked', gone, hstopped', hswept⟩ := hc'
  exact ⟨hlinked', gone, v.world, by rw [hstopped', hstopped], hw, hswept⟩

end Conf

end Nowra
