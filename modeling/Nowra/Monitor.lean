import Mathlib.Logic.Relation
import Nowra.Master

/-!
# Who monitors a listen socket

What decides whether the master monitors a service, and whether it does, is a `Monitor` : the
throttle flag, the two process counts and the limit on one side, `MASTER_FLAG_LISTEN` and the
read interest in the event table on the other. `Monitor.rearm` is what `master_avail_listen`
does to it, and `Monitor.Step` is what the handlers do : new counts, a throttle or a release,
each followed by `rearm` where the code calls `master_avail_listen`.

A monitor is armed if the flag is as the decision says (`Monitor.Armed`), and agreed if the
flag is as the interest (`Monitor.Agreed`). Steps keep both.

`World.view` reads a service's monitor off the master's memory. An operation on a service takes
the service's view through steps and leaves every other service's view alone
(`World.Acts`).
-/

namespace Nowra

/-! ## The monitor of one service -/

/-- What a service's monitoring depends on and consists of. -/
structure Monitor where
  throttled : Bool
  avail : ℤ
  total : ℤ
  max : ℤ
  /-- `MASTER_FLAG_LISTEN` -/
  listening : Bool
  /-- Read interest in the listen descriptor. -/
  interest : Bool
  /-- The listen descriptor is inside the event table. -/
  inTable : Bool

namespace Monitor

/-- No child is available and one may be created. -/
def Spare (m : Monitor) : Prop :=
  m.avail ≤ 0 ∧ masterLimitOk m.max m.total = true

/-- The decision of `master_avail_listen`. -/
def wants (m : Monitor) : Bool :=
  if m.throttled ∨ m.avail > 0 then false else masterLimitOk m.max m.total

/-- `master_avail_listen` -/
def rearm (m : Monitor) : Monitor :=
  { m with
    listening := m.wants
    interest := if m.wants = m.listening ∨ ¬m.inTable then m.interest else m.wants }

/-- What the master's handlers do to a monitor. -/
inductive Step : Monitor → Monitor → Prop
  /-- New counts. -/
  | count (m : Monitor) (avail total : ℤ) :
      Step m ({ m with avail := avail, total := total }).rearm
  /-- A busy child is deleted where monitoring stays off. -/
  | drop (m : Monitor) (total : ℤ) (hle : total ≤ m.total)
      (hoff : ¬({ m with total := total } : Monitor).Spare) : Step m { m with total := total }
  | throttle (m : Monitor) : Step m { m with throttled := true }
  | unthrottle (m : Monitor) : Step m ({ m with throttled := false }).rearm

/-- The flag is as the decision says. -/
def Armed (m : Monitor) : Prop :=
  m.throttled = false → (m.listening = true ↔ m.Spare)

/-- The flag is set if and only if the interest is registered. -/
def Agreed (m : Monitor) : Prop :=
  m.listening = true ↔ m.interest = true

theorem wants_iff {m : Monitor} : m.wants = true ↔ m.throttled = false ∧ m.Spare := by
  unfold wants Spare
  split
  · rename_i h
    constructor
    · nofun
    · rintro ⟨ht, ha, -⟩
      rcases h with h | h
      · simp [ht] at h
      · omega
  · rename_i h
    simp only [not_or, Bool.not_eq_true, not_lt] at h
    exact ⟨fun hl => ⟨h.1, h.2, hl⟩, fun hs => hs.2.2⟩

/-- A limit that is reached by fewer children is reached by more. -/
theorem limitOk_mono {limit count count' : ℤ} (h : count ≤ count')
    (hok : masterLimitOk limit count' = true) : masterLimitOk limit count = true := by
  unfold masterLimitOk at *
  simp only [decide_eq_true_eq] at *
  omega

theorem rearm_armed (m : Monitor) : m.rearm.Armed := fun ht =>
  (wants_iff (m := m)).trans ⟨fun h => h.2, fun h => ⟨ht, h⟩⟩

theorem rearm_agreed {m : Monitor} (h : m.Agreed) (hin : m.inTable = true) :
    m.rearm.Agreed := by
  unfold Agreed rearm at *
  by_cases hw : m.wants = m.listening
  · simpa [hw] using h
  · simp [hw, hin]

/-- Interest in the descriptor comes with the flag, and with a slot. -/
def Honest (m : Monitor) : Prop :=
  m.interest = true → m.listening = true ∧ m.inTable = true

theorem rearm_honest {m : Monitor} (h : m.Honest) : m.rearm.Honest := by
  intro hi
  unfold rearm at hi ⊢
  by_cases hw : m.wants = m.listening
  · simp only [hw, true_or, if_true] at hi ⊢
    exact h hi
  · by_cases hin : m.inTable = true
    · simp only [hw, hin, not_true, or_self, if_false] at hi
      exact ⟨hi, hin⟩
    · simp only [hin] at hi
      exact absurd (h (by simpa using hi)).2 hin

theorem Step.inTable {m m' : Monitor} (h : Step m m') : m'.inTable = m.inTable := by
  cases h <;> rfl

/-- A step keeps a monitor armed. -/
theorem Step.armed {m m' : Monitor} (h : Step m m') (ha : m.Armed) : m'.Armed := by
  cases h with
  | count | unthrottle => exact rearm_armed _
  | throttle => exact nofun
  | drop total hle hoff =>
    intro ht
    refine (ha ht).trans ⟨fun hs => (hoff ?_).elim, fun hs => (hoff hs).elim⟩
    exact ⟨hs.1, limitOk_mono hle hs.2⟩

/-- A step keeps the flag and the interest agreed. -/
theorem Step.agreed {m m' : Monitor} (h : Step m m') (ha : m.Agreed) (hin : m.inTable = true) :
    m'.Agreed := by
  cases h with
  | count | unthrottle => exact rearm_agreed ha hin
  | drop | throttle => exact ha

/-- A step keeps a monitor honest. -/
theorem Step.honest {m m' : Monitor} (h : Step m m') (ha : m.Honest) : m'.Honest := by
  cases h with
  | count | unthrottle => exact rearm_honest ha
  | drop | throttle => exact ha

/-- Any number of steps. -/
abbrev Steps : Monitor → Monitor → Prop := Relation.ReflTransGen Step

theorem Steps.kept {P : Monitor → Prop} (hP : ∀ m m', Step m m' → P m → P m') {m m' : Monitor}
    (h : Steps m m') (hm : P m) : P m' := by
  induction h with
  | refl => exact hm
  | tail _ hst ih => exact hP _ _ hst ih

theorem Steps.inTable {m m' : Monitor} (h : Steps m m') : m'.inTable = m.inTable :=
  h.kept (P := fun m' => m'.inTable = m.inTable) (fun _ _ hst ih => hst.inTable.trans ih) rfl

theorem Steps.armed {m m' : Monitor} (h : Steps m m') (ha : m.Armed) : m'.Armed :=
  h.kept (fun _ _ hst => hst.armed) ha

theorem Steps.honest {m m' : Monitor} (h : Steps m m') (ha : m.Honest) : m'.Honest :=
  h.kept (fun _ _ hst => hst.honest) ha

theorem Steps.agreed {m m' : Monitor} (h : Steps m m') (ha : m.Agreed)
    (hin : m.inTable = true) : m'.Agreed :=
  (h.kept (P := fun m => m.Agreed ∧ m.inTable = true)
    (fun _ _ hst hm => ⟨hst.agreed hm.1 hm.2, hst.inTable.trans hm.2⟩) ⟨ha, hin⟩).1

end Monitor

/-! ## The monitor in the master's memory -/

namespace World

/-- The event table has read interest in the descriptor. -/
def interest (w : World) (fd : ℤ) : Bool :=
  fd < w.masterEl.size && (w.masterEl.regEvents fd).mask.read

/-- The monitor of a service. -/
def view (w : World) (s : ServPtr) : Monitor where
  throttled := (w.serv s).flags.throttle
  avail := (w.serv s).availProc
  total := (w.serv s).totalProc
  max := (w.serv s).maxProc
  listening := (w.serv s).flags.listen
  interest := w.interest (w.serv s).listenFd
  inTable := (w.serv s).listenFd < w.masterEl.size

@[simp] theorem updServ_self (w : World) (s : ServPtr) (f : MasterServ → MasterServ) :
    (w.updServ s f).serv s = f (w.serv s) := by
  simp [updServ]

theorem updServ_of_ne {w : World} {s s' : ServPtr} (h : s' ≠ s) (f : MasterServ → MasterServ) :
    (w.updServ s f).serv s' = w.serv s' := by
  simp [updServ, Function.update_of_ne h]

/-- An open listen descriptor is that of one service, and no status pipe. -/
structure FdsOk (w : World) : Prop where
  listen : ∀ s s', 0 ≤ (w.serv s).listenFd → (w.serv s').listenFd = (w.serv s).listenFd → s' = s
  status : ∀ s s', 0 ≤ (w.serv s).listenFd → (w.serv s').statusFd.1 ≠ (w.serv s).listenFd

theorem fdsOk_init : masterInit.FdsOk where
  listen s s' h := absurd h (by simp [masterInit, masterServNone])
  status s s' h := absurd h (by simp [masterInit, masterServNone])

/-- The callbacks of a slot have stayed, or reads now go to the service that listens on the
descriptor. -/
structure SlotKept (w w' : World) (fd : ℤ) : Prop where
  write : (w'.masterEl.regEvents fd).writeCb = (w.masterEl.regEvents fd).writeCb
  read : ((w'.masterEl.regEvents fd).readCb = (w.masterEl.regEvents fd).readCb ∧
      (w'.masterEl.regEvents fd).clientData = (w.masterEl.regEvents fd).clientData) ∨
    ∃ s, 0 ≤ fd ∧ (w.serv s).listenFd = fd ∧
      (w'.masterEl.regEvents fd).readCb = some .masterAvailEvent ∧
      (w'.masterEl.regEvents fd).clientData = some s

theorem SlotKept.of_eq {w w' : World} {fd : ℤ}
    (h : w'.masterEl.regEvents fd = w.masterEl.regEvents fd) : w.SlotKept w' fd :=
  ⟨by rw [h], Or.inl ⟨by rw [h], by rw [h]⟩⟩

theorem SlotKept.refl (w : World) (fd : ℤ) : w.SlotKept w fd :=
  .of_eq rfl

theorem SlotKept.trans {w w' w'' : World} {fd : ℤ} (h : w.SlotKept w' fd)
    (h' : w'.SlotKept w'' fd) (hfd : ∀ s, (w'.serv s).listenFd = (w.serv s).listenFd) :
    w.SlotKept w'' fd := by
  refine ⟨h'.write.trans h.write, ?_⟩
  rcases h'.read with ⟨hcb, hctx⟩ | ⟨s, hpos, hs, hcb, hctx⟩
  · rcases h.read with hr | ⟨s, hpos, hs, hr⟩
    · exact Or.inl ⟨hcb.trans hr.1, hctx.trans hr.2⟩
    · exact Or.inr ⟨s, hpos, hs, hcb.trans hr.1, hctx.trans hr.2⟩
  · exact Or.inr ⟨s, hpos, (hfd s).symm.trans hs, hcb, hctx⟩

/-- What has changed from `w` to `w'` is service `s`, apart from its descriptors, the slot of
its listen descriptor, and nothing else that monitoring depends on. -/
structure Only (w w' : World) (s : ServPtr) : Prop where
  head : w'.masterHead = w.masterHead
  nextServ : w'.nextServ = w.nextServ
  size : w'.masterEl.size = w.masterEl.size
  other : ∀ s', s' ≠ s → w'.serv s' = w.serv s'
  listenFd : (w'.serv s).listenFd = (w.serv s).listenFd
  statusFd : (w'.serv s).statusFd = (w.serv s).statusFd
  reg : ∀ fd, fd ≠ (w.serv s).listenFd →
    w'.masterEl.regEvents fd = w.masterEl.regEvents fd
  slot : ∀ fd, w.SlotKept w' fd

theorem Only.refl (w : World) (s : ServPtr) : w.Only w s :=
  ⟨rfl, rfl, rfl, fun _ _ => rfl, rfl, rfl, fun _ _ => rfl, SlotKept.refl w⟩

theorem Only.listenFd_eq {w w' : World} {s : ServPtr} (h : w.Only w' s) (s' : ServPtr) :
    (w'.serv s').listenFd = (w.serv s').listenFd := by
  rcases eq_or_ne s' s with rfl | hs
  · exact h.listenFd
  · rw [h.other s' hs]

theorem Only.statusFd_eq {w w' : World} {s : ServPtr} (h : w.Only w' s) (s' : ServPtr) :
    (w'.serv s').statusFd = (w.serv s').statusFd := by
  rcases eq_or_ne s' s with rfl | hs
  · exact h.statusFd
  · rw [h.other s' hs]

theorem Only.trans {w w' w'' : World} {s : ServPtr} (h : w.Only w' s) (h' : w'.Only w'' s) :
    w.Only w'' s where
  head := h'.head.trans h.head
  nextServ := h'.nextServ.trans h.nextServ
  size := h'.size.trans h.size
  other s' hs := (h'.other s' hs).trans (h.other s' hs)
  listenFd := h'.listenFd.trans h.listenFd
  statusFd := h'.statusFd.trans h.statusFd
  reg fd hfd := (h'.reg fd (h.listenFd ▸ hfd)).trans (h.reg fd hfd)
  slot fd := (h.slot fd).trans (h'.slot fd) h.listenFd_eq

/-- The first world may differ in what monitoring does not depend on. -/
theorem Only.of_left {w v w' : World} {s : ServPtr} (h : v.Only w' s) (hserv : v.serv = w.serv)
    (hel : v.masterEl = w.masterEl) (hhead : v.masterHead = w.masterHead)
    (hnext : v.nextServ = w.nextServ) : w.Only w' s where
  head := h.head.trans hhead
  nextServ := h.nextServ.trans hnext
  size := h.size.trans (by rw [hel])
  other s' hs := (h.other s' hs).trans (by rw [hserv])
  listenFd := h.listenFd.trans (by rw [hserv])
  statusFd := h.statusFd.trans (by rw [hserv])
  reg fd hfd := (h.reg fd (by rwa [hserv])).trans (by rw [hel])
  slot fd := by
    obtain ⟨hw, hr⟩ := h.slot fd
    rw [hel] at hw hr
    rw [hserv] at hr
    exact ⟨hw, hr⟩

/-- The views of the other services stay. -/
theorem Only.view {w w' : World} {s s' : ServPtr} (h : w.Only w' s) (hf : w.FdsOk) (hs : s' ≠ s)
    (hfd : 0 ≤ (w.serv s').listenFd) : w'.view s' = w.view s' := by
  have hne : (w.serv s').listenFd ≠ (w.serv s).listenFd := fun he =>
    hs (hf.listen s' s hfd he.symm).symm
  unfold World.view World.interest
  rw [h.other s' hs, h.reg _ hne, h.size]

/-- An operation on a service takes its view through steps of the monitor. -/
structure Acts (w w' : World) (s : ServPtr) : Prop extends w.Only w' s where
  steps : (w.view s).Steps (w'.view s)

theorem Acts.refl (w : World) (s : ServPtr) : w.Acts w s :=
  ⟨.refl w s, .refl⟩

theorem Acts.trans {w w' w'' : World} {s : ServPtr} (h : w.Acts w' s) (h' : w'.Acts w'' s) :
    w.Acts w'' s :=
  ⟨h.toOnly.trans h'.toOnly, h.steps.trans h'.steps⟩

end World

/-! ## The operations -/

/-- A slot with read interest for a callback. -/
def EventBase.reading (eb : EventBase Callback ServPtr) (callback : Callback) (s : ServPtr) :
    EventBase Callback ServPtr :=
  { eb with mask := eb.mask.or eventRead, readCb := some callback, clientData := some s }

/-- `w'` is `w` after `master_avail_listen` on a service. -/
structure World.Rearmed (w w' : World) (s : ServPtr) : Prop where
  eq : w' = { w with
    masterEl := w'.masterEl
    serv := Function.update w.serv s { w.serv s with
      flags := { (w.serv s).flags with listen := (w.serv s).listenFlag } } }
  fd : (w.serv s).listenFlag = (w.serv s).flags.listen ∨ 0 ≤ (w.serv s).listenFd
  size : w'.masterEl.size = w.masterEl.size
  reg : ∀ fd, fd ≠ (w.serv s).listenFd →
    w'.masterEl.regEvents fd = w.masterEl.regEvents fd
  slot : w'.masterEl.regEvents (w.serv s).listenFd =
    if (w.serv s).listenFlag = (w.serv s).flags.listen ∨ w.masterEl.size ≤ (w.serv s).listenFd then
      w.masterEl.regEvents (w.serv s).listenFd
    else if (w.serv s).listenFlag then
      (w.masterEl.regEvents (w.serv s).listenFd).reading .masterAvailEvent s
    else { w.masterEl.regEvents (w.serv s).listenFd with
      mask := (w.masterEl.regEvents (w.serv s).listenFd).mask.without eventRead }

/-- `master_avail_listen` sets the flag as it decides, and the interest with it if the listen
descriptor is inside the table. It panics on a descriptor that is none. -/
theorem masterAvailListen_spec (w : World) (s : ServPtr) :
    ((w.serv s).listenFd < 0 ∧
      masterAvailListen w s = .error (.badFileDescriptor (w.serv s).listenFd)) ∨
    ∃ w', masterAvailListen w s = .ok w' ∧ w.Rearmed w' s := by
  have hkeep : (w.serv s).listenFlag = (w.serv s).flags.listen → w.Rearmed w s := fun h =>
    ⟨by rw [h, Function.update_eq_self], Or.inl h, rfl, fun _ _ => rfl, by simp [h]⟩
  unfold masterAvailListen
  cases hflag : (w.serv s).listenFlag <;> cases hlisten : (w.serv s).flags.listen
  · exact Or.inr ⟨w, by simp [hflag, hlisten]; rfl, hkeep (by rw [hflag, hlisten])⟩
  · rcases eventDisableRw_spec w.masterEl (w.serv s).listenFd eventRead with
      ⟨hneg, herr⟩ | ⟨r, el, hfd, hok, hset⟩
    · exact Or.inl ⟨hneg, by simp [hflag, hlisten, herr]⟩
    · refine Or.inr ⟨_, by simp [hflag, hlisten, hok]; rfl, ?_⟩
      refine ⟨by simp [World.updServ, hflag], Or.inr hfd, hset.size,
        fun fd hfd => hset.of_ne hfd, ?_⟩
      by_cases hin : (w.serv s).listenFd < w.masterEl.size
      · simp [World.updServ, hset.self hin, hflag, hlisten, hin]
      · simp [World.updServ, hset.slot, hin, not_lt.1 hin]
  · rcases eventEnableRw_spec w.masterEl (w.serv s).listenFd .masterAvailEvent s eventRead with
      ⟨hneg, herr⟩ | ⟨r, el, hfd, hok, hset⟩
    · exact Or.inl ⟨hneg, by simp [hflag, hlisten, herr]⟩
    · refine Or.inr ⟨_, by simp [hflag, hlisten, hok]; rfl, ?_⟩
      refine ⟨by simp [World.updServ, hflag], Or.inr hfd, hset.size,
        fun fd hfd => hset.of_ne hfd, ?_⟩
      by_cases hin : (w.serv s).listenFd < w.masterEl.size
      · simp [World.updServ, hset.self hin, hflag, hlisten, hin, eventRead, EventBase.reading]
      · simp [World.updServ, hset.slot, hin, not_lt.1 hin]
  · exact Or.inr ⟨w, by simp [hflag, hlisten]; rfl, hkeep (by rw [hflag, hlisten])⟩

namespace World

theorem Rearmed.serv {w w' : World} {s : ServPtr} (h : w.Rearmed w' s) :
    w'.serv = Function.update w.serv s { w.serv s with
      flags := { (w.serv s).flags with listen := (w.serv s).listenFlag } } :=
  congrArg World.serv h.eq

theorem Rearmed.serv_self {w w' : World} {s : ServPtr} (h : w.Rearmed w' s) :
    w'.serv s = { w.serv s with
      flags := { (w.serv s).flags with listen := (w.serv s).listenFlag } } := by
  rw [h.serv, Function.update_self]

theorem Rearmed.throttle {w w' : World} {s : ServPtr} (h : w.Rearmed w' s) (t : ServPtr) :
    (w'.serv t).flags.throttle = (w.serv t).flags.throttle := by
  rcases eq_or_ne t s with rfl | ht
  · rw [h.serv_self]
  · rw [h.serv, Function.update_of_ne ht]

theorem Rearmed.only {w w' : World} {s : ServPtr} (h : w.Rearmed w' s) : w.Only w' s where
  head := (congrArg World.masterHead h.eq :)
  nextServ := (congrArg World.nextServ h.eq :)
  size := h.size
  other s' hs := by rw [h.serv, Function.update_of_ne hs]
  listenFd := by rw [h.serv_self]
  statusFd := by rw [h.serv_self]
  reg := h.reg
  slot fd := by
    rcases eq_or_ne fd (w.serv s).listenFd with rfl | hfd
    · constructor <;> rw [h.slot] <;> split
      · rfl
      · split <;> rfl
      · exact Or.inl ⟨rfl, rfl⟩
      · rename_i hor
        split
        · exact Or.inr ⟨s, h.fd.resolve_left fun he => hor (Or.inl he), rfl, rfl, rfl⟩
        · exact Or.inl ⟨rfl, rfl⟩
    · exact .of_eq (h.reg fd hfd)

theorem Rearmed.interest {w w' : World} {s : ServPtr} (h : w.Rearmed w' s) :
    w'.interest (w.serv s).listenFd =
      if (w.serv s).listenFlag = (w.serv s).flags.listen ∨
        w.masterEl.size ≤ (w.serv s).listenFd then w.interest (w.serv s).listenFd
      else (w.serv s).listenFlag := by
  unfold World.interest
  rw [h.slot, h.size]
  split
  · rfl
  · rename_i hor
    have hin : (w.serv s).listenFd < w.masterEl.size := not_le.1 fun hle => hor (Or.inr hle)
    cases (w.serv s).listenFlag <;> simp [hin, EventBase.reading, eventRead]

theorem Rearmed.view {w w' : World} {s : ServPtr} (h : w.Rearmed w' s) :
    w'.view s = (w.view s).rearm := by
  have hinterest := h.interest
  unfold World.view Monitor.rearm
  simp only [h.serv_self, h.size, Monitor.mk.injEq, true_and, and_true]
  refine ⟨rfl, ?_⟩
  rw [hinterest]
  simp only [decide_eq_true_eq, not_lt]
  rfl

/-- A change of service `s` in memory, apart from its descriptors. -/
theorem Only.of_update {w w' : World} {s : ServPtr} {serv : MasterServ}
    (hserv : w'.serv = Function.update w.serv s serv) (hel : w'.masterEl = w.masterEl)
    (hhead : w'.masterHead = w.masterHead) (hnext : w'.nextServ = w.nextServ)
    (hlisten : serv.listenFd = (w.serv s).listenFd)
    (hstatus : serv.statusFd = (w.serv s).statusFd) : w.Only w' s where
  head := hhead
  nextServ := hnext
  size := by rw [hel]
  other s' hs := by rw [hserv, Function.update_of_ne hs]
  listenFd := by rw [hserv, Function.update_self, hlisten]
  statusFd := by rw [hserv, Function.update_self, hstatus]
  reg fd _ := by rw [hel]
  slot fd := .of_eq (by rw [hel])

/-- New counts, and `master_avail_listen` after them. -/
theorem Acts.of_count {w v w' : World} {s : ServPtr} {serv : MasterServ} {avail total : ℤ}
    (hserv : v.serv = Function.update w.serv s serv) (hel : v.masterEl = w.masterEl)
    (hhead : v.masterHead = w.masterHead) (hnext : v.nextServ = w.nextServ)
    (heq : serv = { w.serv s with availProc := avail, totalProc := total })
    (h : v.Rearmed w' s) : w.Acts w' s := by
  subst heq
  refine ⟨(Only.of_update hserv hel hhead hnext rfl rfl).trans h.only, .single ?_⟩
  have hview : v.view s = { w.view s with avail := avail, total := total } := by
    simp [World.view, World.interest, hserv, hel]
  rw [h.view, hview]
  exact .count _ _ _

end World

open World

theorem masterAvailListen_ok {w w' : World} {s : ServPtr} (h : masterAvailListen w s = .ok w') :
    w.Rearmed w' s := by
  rcases masterAvailListen_spec w s with ⟨-, herr⟩ | ⟨w'', hok, hre⟩
  · rw [herr] at h
    cases h
  · obtain rfl := Except.ok.inj (hok.symm.trans h)
    exact hre

/-- What `master_avail_more` writes before it calls `master_avail_listen`. -/
def World.more (w : World) (s : ServPtr) (p : ProcPtr) : World :=
  (w.updServ s fun serv => { serv with availProc := serv.availProc + 1 }).updProc p
    fun proc => { proc with avail := masterStatAvail }

/-- What `master_avail_less` writes before it calls `master_avail_listen`. -/
def World.less (w : World) (s : ServPtr) (p : ProcPtr) : World :=
  (w.updServ s fun serv => { serv with availProc := serv.availProc - 1 }).updProc p
    fun proc => { proc with avail := masterStatTaken }

theorem masterAvailMore_ok {w w' : World} {s : ServPtr} {p : ProcPtr}
    (h : masterAvailMore w s p = .ok w') :
    (w.proc p).avail ≠ masterStatAvail ∧ (w.more s p).Rearmed w' s := by
  unfold masterAvailMore at h
  split at h
  · cases h
  · exact ⟨‹_›, masterAvailListen_ok h⟩

theorem masterAvailLess_ok {w w' : World} {s : ServPtr} {p : ProcPtr}
    (h : masterAvailLess w s p = .ok w') :
    (w.proc p).avail = masterStatAvail ∧ (w.less s p).Rearmed w' s := by
  unfold masterAvailLess at h
  split at h
  · cases h
  · exact ⟨not_not.1 ‹_›, masterAvailListen_ok h⟩

/-- An announcement panics about the record or about the listen descriptor. -/
theorem masterAvailMore_error {w : World} {s : ServPtr} {p : ProcPtr} {e : Panic}
    (h : masterAvailMore w s p = .error e) :
    e = .processAlreadyAvailable ∨ ∃ fd, e = .badFileDescriptor fd := by
  unfold masterAvailMore at h
  split at h
  · exact Or.inl (Except.error.inj h).symm
  · rcases masterAvailListen_spec (w.more s p) s with ⟨-, herr⟩ | ⟨w', hok, -⟩
    · exact Or.inr ⟨_, Except.error.inj (h.symm.trans herr)⟩
    · cases h.symm.trans hok

theorem masterAvailMore_acts {w w' : World} {s : ServPtr} {p : ProcPtr}
    (h : masterAvailMore w s p = .ok w') : w.Acts w' s :=
  .of_count (v := w.more s p) rfl rfl rfl rfl rfl (masterAvailMore_ok h).2

theorem masterAvailLess_acts {w w' : World} {s : ServPtr} {p : ProcPtr}
    (h : masterAvailLess w s p = .ok w') : w.Acts w' s :=
  .of_count (v := w.less s p) rfl rfl rfl rfl rfl (masterAvailLess_ok h).2

/-- What `master_unthrottle` writes before it calls `master_avail_listen`. -/
def World.released (w : World) (s : ServPtr) (now : ℤ) : World :=
  { w.updServ s fun serv => { serv with flags := { serv.flags with throttle := false } } with
    timers := (eventCancelTimer w.timers .masterUnthrottleWrapper s now).2 }

/-- A throttled service stays as it is. Another gets the flag and a timer. -/
theorem masterThrottle_ok {w w' : World} {s : ServPtr} {now : ℤ}
    (h : masterThrottle w s now = .ok w') :
    w' = { w with
      timers := w'.timers
      serv := Function.update w.serv s { w.serv s with
        flags := { (w.serv s).flags with throttle := true } } } := by
  unfold masterThrottle at h
  split at h
  · rename_i hthr
    obtain rfl := Except.ok.inj h
    rw [← hthr, Function.update_eq_self]
  · obtain ⟨r, -, h⟩ := bind_ok_iff.1 h
    obtain rfl := Except.ok.inj h
    rfl

/-- A throttle panics about the delay only. -/
theorem masterThrottle_error {w : World} {s : ServPtr} {now : ℤ} {e : Panic}
    (h : masterThrottle w s now = .error e) : ∃ delay, e = .invalidDelay delay := by
  unfold masterThrottle at h
  split at h
  · cases h
  rcases bind_error_iff.1 h with h | ⟨r, -, h⟩
  · unfold eventRequestTimer at h
    simp only at h
    split at h
    · exact ⟨_, (Except.error.inj h).symm⟩
    · cases h
  · cases h

theorem masterThrottle_acts {w w' : World} {s : ServPtr} {now : ℤ}
    (h : masterThrottle w s now = .ok w') : w.Acts w' s := by
  rw [masterThrottle_ok h]
  refine ⟨.of_update rfl rfl rfl rfl rfl rfl, .single ?_⟩
  have hstep := Monitor.Step.throttle (w.view s)
  simpa [World.view, World.interest] using hstep

theorem masterUnthrottle_ok {w w' : World} {s : ServPtr} {now : ℤ}
    (h : masterUnthrottle w s now = .ok w') :
    ((w.serv s).flags.throttle = true ∧ (w.released s now).Rearmed w' s) ∨
      ((w.serv s).flags.throttle = false ∧ w' = w) := by
  unfold masterUnthrottle at h
  split at h
  · exact Or.inl ⟨‹_›, masterAvailListen_ok h⟩
  · rename_i hthr
    exact Or.inr ⟨by simpa using hthr, (Except.ok.inj h).symm⟩

theorem masterUnthrottle_acts {w w' : World} {s : ServPtr} {now : ℤ}
    (h : masterUnthrottle w s now = .ok w') : w.Acts w' s := by
  rcases masterUnthrottle_ok h with ⟨-, hre⟩ | ⟨-, rfl⟩
  · have honly : w.Only (w.released s now) s := .of_update rfl rfl rfl rfl rfl rfl
    refine ⟨honly.trans hre.only, .single ?_⟩
    rw [hre.view]
    have hstep := Monitor.Step.unthrottle (w.view s)
    simpa [World.view, World.interest, World.released, World.updServ] using hstep
  · exact .refl w' s

/-- The master after a successful `fork`, with the child's record in the table and counted,
before `master_avail_more`. -/
def World.forked (w : World) (s : ServPtr) (pid : MasterPid) : World :=
  World.updServ { w with
    nextProc := w.nextProc + 1
    proc := Function.update w.proc w.nextProc { pid := pid, avail := 0, serv := s, useCount := 0 }
    masterChildTable := some (binhashEnter
      (w.masterChildTable.getD (binhashCreate ProcPtr 0)) (pidKey pid) w.nextProc) }
    s fun serv => { serv with totalProc := serv.totalProc + 1 }

/-- What `master_spawn` checks. -/
def MasterServ.SpawnOk (serv : MasterServ) : Prop :=
  masterLimitOk serv.maxProc serv.totalProc = true ∧ serv.availProc ≤ 0 ∧
    serv.flags.throttle = false

/-- The table of children exists once `master_spawn` was called. -/
def World.tabled (w : World) : World :=
  { w with masterChildTable := some (w.masterChildTable.getD (binhashCreate ProcPtr 0)) }

/-- A spawn that returns has passed the checks, and has throttled the service or recorded and
announced the child. -/
theorem masterSpawn_ok {w w' : World} {s : ServPtr} {fork : Option MasterPid} {now : ℤ}
    (h : masterSpawn w s fork now = .ok w') :
    (w.serv s).SpawnOk ∧ ((fork = none ∧ masterThrottle w.tabled s now = .ok w') ∨
      ∃ pid v, fork = some pid ∧ ((w.forked s pid).more s w.nextProc).Rearmed v s ∧
        w' = v.updServ s fun serv => { serv with
          flags := { serv.flags with condwake := false } }) := by
  simp only [masterSpawn] at h
  split at h
  · cases h
  rename_i hlimit
  split at h
  · cases h
  rename_i havail
  split at h
  · cases h
  rename_i hthr
  refine ⟨⟨by simpa using hlimit, not_lt.1 havail, by simpa using hthr⟩, ?_⟩
  cases fork with
  | none => exact Or.inl ⟨rfl, h⟩
  | some pid =>
    obtain ⟨v, hmore, h⟩ := bind_ok_iff.1 h
    exact Or.inr ⟨pid, v, rfl, (masterAvailMore_ok hmore).2, (Except.ok.inj h).symm⟩

theorem masterSpawn_acts {w w' : World} {s : ServPtr} {fork : Option MasterPid} {now : ℤ}
    (h : masterSpawn w s fork now = .ok w') : w.Acts w' s := by
  obtain ⟨-, ⟨-, hthr⟩ | ⟨pid, v, -, hre, rfl⟩⟩ := masterSpawn_ok h
  · have hacts := masterThrottle_acts hthr
    exact ⟨hacts.toOnly.of_left rfl rfl rfl rfl, hacts.steps⟩
  · have hacts : w.Acts v s := .of_count (v := (w.forked s pid).more s w.nextProc)
      (by simp [World.forked, World.more, World.updServ, World.updProc]; rfl) rfl rfl rfl rfl hre
    refine hacts.trans ⟨.of_update rfl rfl rfl rfl rfl rfl, ?_⟩
    have hview : (v.updServ s fun serv => { serv with
        flags := { serv.flags with condwake := false } }).view s = v.view s := by
      simp [World.view, World.interest, World.updServ]
    rw [hview]

/-- One child process less. -/
def World.dropped (w : World) (s : ServPtr) : World :=
  w.updServ s fun serv => { serv with totalProc := serv.totalProc - 1 }

/-- The counts of a service leave room for a child and have none available. -/
def MasterServ.Spare (serv : MasterServ) : Prop :=
  serv.availProc ≤ 0 ∧ masterLimitOk serv.maxProc serv.totalProc = true

/-- The three branches of `master_delete_child`, up to the table. -/
theorem masterDeleteChild_ok {w w' : World} {p : ProcPtr} (h : masterDeleteChild w p = .ok w') :
    ∃ v, binhashDelete v.masterChildTable (pidKey (v.proc p).pid) = .ok w'.masterChildTable ∧
      w' = { v with masterChildTable := w'.masterChildTable } ∧
      (((w.proc p).avail = masterStatAvail ∧
        ((w.dropped (w.proc p).serv).less (w.proc p).serv p).Rearmed v (w.proc p).serv) ∨
      ((w.proc p).avail ≠ masterStatAvail ∧
        (w.dropped (w.proc p).serv).Rearmed v (w.proc p).serv) ∨
      ((w.proc p).avail ≠ masterStatAvail ∧ v = w.dropped (w.proc p).serv ∧
        ¬(v.serv (w.proc p).serv).Spare)) := by
  simp only [masterDeleteChild] at h
  obtain ⟨v, hv, h⟩ := bind_ok_iff.1 h
  obtain ⟨table, htable, h⟩ := bind_ok_iff.1 h
  obtain rfl := Except.ok.inj h
  refine ⟨v, htable, rfl, ?_⟩
  split at hv
  · exact Or.inl ⟨‹_›, (masterAvailLess_ok hv).2⟩
  rename_i hne
  split at hv
  · exact Or.inr (Or.inl ⟨hne, masterAvailListen_ok hv⟩)
  · rename_i hspare
    obtain rfl := Except.ok.inj hv
    refine Or.inr (Or.inr ⟨hne, rfl, ?_⟩)
    rintro ⟨havail, hlimit⟩
    exact hspare ⟨hlimit, lt_of_le_of_lt havail zero_lt_one⟩

theorem masterDeleteChild_acts {w w' : World} {p : ProcPtr} (h : masterDeleteChild w p = .ok w') :
    w.Acts w' (w.proc p).serv := by
  obtain ⟨v, -, heq, hcases⟩ := masterDeleteChild_ok h
  have hv : w.Acts v (w.proc p).serv := by
    rcases hcases with ⟨-, hre⟩ | ⟨-, hre⟩ | ⟨-, rfl, hoff⟩
    · exact .of_count (v := (w.dropped (w.proc p).serv).less (w.proc p).serv p)
        (by simp [World.dropped, World.less, World.updServ, World.updProc]; rfl) rfl rfl rfl rfl hre
    · exact .of_count (v := w.dropped (w.proc p).serv) rfl rfl rfl rfl rfl hre
    · refine ⟨.of_update rfl rfl rfl rfl rfl rfl, .single ?_⟩
      have hstep := Monitor.Step.drop (w.view (w.proc p).serv)
        ((w.serv (w.proc p).serv).totalProc - 1) (by simp [World.view])
      have hoff' : ¬({ w.view (w.proc p).serv with
          total := (w.serv (w.proc p).serv).totalProc - 1 } : Monitor).Spare := by
        simpa [World.view, World.dropped, MasterServ.Spare, Monitor.Spare] using hoff
      simpa [World.view, World.interest, World.dropped, World.updServ] using hstep hoff'
  rw [heq]
  exact hv.trans ⟨⟨rfl, rfl, rfl, fun _ _ => rfl, rfl, rfl, fun _ _ => rfl,
    fun _ => .of_eq rfl⟩, .refl⟩

/-- A child that `waitpid` returned has a record. The service may be throttled, and the record
is deleted. -/
theorem masterReap_ok {w w' : World} {dead : Waited} (h : masterReap w dead = .ok w') :
    ∃ p v, binhashFind w.masterChildTable (pidKey dead.pid) = some p ∧
      (masterThrottle w (w.proc p).serv dead.now = .ok v ∨ v = w) ∧
      masterDeleteChild v p = .ok w' := by
  simp only [masterReap] at h
  split at h
  · cases h
  · rename_i p hfind
    obtain ⟨v, hv, h⟩ := bind_ok_iff.1 h
    split at hv
    · exact ⟨p, v, hfind, Or.inl hv, h⟩
    · exact ⟨p, v, hfind, Or.inr (Except.ok.inj hv).symm, h⟩

theorem masterReap_acts {w w' : World} {dead : Waited} (h : masterReap w dead = .ok w') :
    ∃ p, binhashFind w.masterChildTable (pidKey dead.pid) = some p ∧
      w.Acts w' (w.proc p).serv := by
  obtain ⟨p, v, hfind, hv, hdel⟩ := masterReap_ok h
  refine ⟨p, hfind, ?_⟩
  have hacts := masterDeleteChild_acts hdel
  rcases hv with hthr | rfl
  · have hproc : v.proc = w.proc := (congrArg World.proc (masterThrottle_ok hthr) :)
    rw [hproc] at hacts
    exact (masterThrottle_acts hthr).trans hacts
  · exact hacts

/-- A status message that is not ignored updates the record of its sender. -/
theorem masterStatusEvent_ok {w w' : World} {event : ℤ} {s : ServPtr} {read : StatusRead}
    (h : masterStatusEvent w event s read = .ok w') :
    w' = w ∨ ∃ stat p, read = .stat stat ∧
      binhashFind w.masterChildTable (pidKey stat.pid) = some p ∧ (w.proc p).serv = s ∧
      (w.proc p).avail ≠ stat.avail ∧
      ((stat.avail = masterStatAvail ∧ masterAvailMore
        (w.updProc p fun proc => { proc with useCount := proc.useCount + 1 }) s p = .ok w') ∨
      (stat.avail = masterStatTaken ∧ masterAvailLess w s p = .ok w')) := by
  unfold masterStatusEvent at h
  split at h
  · exact Or.inl (Except.ok.inj h).symm
  cases read with
  | error => exact Or.inl (Except.ok.inj h).symm
  | eof => cases h
  | short n => exact Or.inl (Except.ok.inj h).symm
  | stat stat =>
    simp only at h
    split at h
    · exact Or.inl (Except.ok.inj h).symm
    rename_i p hfind
    split at h
    · cases h
    rename_i hserv
    split at h
    · exact Or.inl (Except.ok.inj h).symm
    rename_i havail
    split at h
    · exact Or.inr ⟨stat, p, rfl, hfind, not_not.1 hserv, havail, Or.inl ⟨‹_›, h⟩⟩
    split at h
    · exact Or.inr ⟨stat, p, rfl, hfind, not_not.1 hserv, havail, Or.inr ⟨‹_›, h⟩⟩
    · exact Or.inl (Except.ok.inj h).symm

theorem masterStatusEvent_acts {w w' : World} {event : ℤ} {s : ServPtr} {read : StatusRead}
    (h : masterStatusEvent w event s read = .ok w') : w.Acts w' s := by
  obtain rfl | ⟨stat, p, -, -, -, -, ⟨-, hmore⟩ | ⟨-, hless⟩⟩ := masterStatusEvent_ok h
  · exact .refl w' s
  · have hacts := masterAvailMore_acts hmore
    exact ⟨hacts.toOnly.of_left rfl rfl rfl rfl, hacts.steps⟩
  · exact masterAvailLess_acts hless

/-- A connection to a service that is throttled disables the interest. -/
theorem masterAvailEvent_ok {w w' : World} {event : ℤ} {s : ServPtr} {fork : Option MasterPid}
    {now : ℤ} (h : masterAvailEvent w event s fork now = .ok w') :
    (event = 0 ∧ w' = w) ∨
    (event ≠ 0 ∧ (w.serv s).flags.throttle = true ∧ w' = { w with masterEl := w'.masterEl } ∧
      w.masterEl.SlotSet w'.masterEl (w.serv s).listenFd
        { w.masterEl.regEvents (w.serv s).listenFd with
          mask := (w.masterEl.regEvents (w.serv s).listenFd).mask.without eventRead }) ∨
    (event ≠ 0 ∧ (w.serv s).flags.throttle = false ∧ masterSpawn w s fork now = .ok w') := by
  unfold masterAvailEvent at h
  split at h
  · exact Or.inl ⟨‹_›, (Except.ok.inj h).symm⟩
  split at h
  · obtain ⟨r, hr, h⟩ := bind_ok_iff.1 h
    obtain rfl := Except.ok.inj h
    exact Or.inr (Or.inl ⟨‹_›, ‹_›, rfl, slotSet_of_eventDisableRw hr⟩)
  · rename_i hev hthr
    exact Or.inr (Or.inr ⟨hev, by simpa using hthr, h⟩)

end Nowra
