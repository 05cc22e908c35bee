import Mathlib.Data.List.Sort
import Mathlib.Algebra.Order.Ring.Int
import Nowra.Msg

/-!
# The event loop

`events.c` : a table of registered interests indexed by descriptor, kept next to the kernel's
epoll set, and a queue of timers sorted by their time. What the kernel answers to `epoll_ctl`
is a parameter (`EpollCtl`), with `EpollOk` for a kernel that never fails.

`eventEnableRw_spec` and `eventDisableRw_spec` say what the two registration calls write when
the kernel does not fail : the one slot of the descriptor, if it is inside the table, and
`maxfd`.
-/

namespace Nowra

/-! ## Registered interests -/

/-- A mask of event codes. -/
structure EventMask where
  read : Bool
  write : Bool
  xcpt : Bool
  time : Bool
  deriving DecidableEq

/-- `EVENT_NONE` -/
def eventNone : EventMask := ⟨false, false, false, false⟩

/-- `EVENT_READ` -/
def eventRead : EventMask := ⟨true, false, false, false⟩

/-- `EVENT_WRITE` -/
def eventWrite : EventMask := ⟨false, true, false, false⟩

/-- `m | m'` -/
def EventMask.or (m m' : EventMask) : EventMask :=
  ⟨m.read || m'.read, m.write || m'.write, m.xcpt || m'.xcpt, m.time || m'.time⟩

/-- `m & ~m'` -/
def EventMask.without (m m' : EventMask) : EventMask :=
  ⟨m.read && !m'.read, m.write && !m'.write, m.xcpt && !m'.xcpt, m.time && !m'.time⟩

@[simp] theorem or_read (m m' : EventMask) : (m.or m').read = (m.read || m'.read) := rfl

@[simp] theorem without_read (m m' : EventMask) :
    (m.without m').read = (m.read && !m'.read) := rfl

/-- A slot of the table. -/
structure EventBase (κ γ : Type) where
  mask : EventMask
  readCb : Option κ
  writeCb : Option κ
  clientData : Option γ

/-- The operations of `epoll_ctl`. -/
inductive EpollOp
  | add
  | mod
  | del
  deriving DecidableEq

/-- The events asked of `epoll_ctl`. -/
structure EpollEvents where
  epollin : Bool
  epollout : Bool
  deriving DecidableEq

/-- The events for a mask. -/
def epollEvents (mask : EventMask) : EpollEvents := ⟨mask.read, mask.write⟩

/-- What the kernel does to its epoll set on a call of `epoll_ctl`. Nothing is a `-1`. -/
class EpollCtl (K : Type) where
  epollCtl : K → EpollOp → ℤ → EpollEvents → Option K

export EpollCtl (epollCtl)

/-- A kernel that never fails. -/
class EpollOk (K : Type) [EpollCtl K] : Prop where
  isSome : ∀ (k : K) op fd ev, (epollCtl k op fd ev).isSome

/-- An event loop over the epoll set `K`, with callbacks `κ` on contexts `γ`. -/
structure EventLoop (K κ γ : Type) where
  /-- The highest registered descriptor. -/
  maxfd : ℤ
  size : ℤ
  regEvents : ℤ → EventBase κ γ
  epfd : K

variable {K κ γ : Type} [EpollCtl K]

/-- A loop for `size` descriptors, on a new epoll set. -/
def eventInit (κ γ : Type) (size : ℤ) (epfd : K) : EventLoop K κ γ where
  maxfd := -1
  size := size
  regEvents _ := ⟨eventNone, none, none, none⟩
  epfd := epfd

/-- Store a slot. -/
def EventLoop.setEvent (evlp : EventLoop K κ γ) (fd : ℤ) (eb : EventBase κ γ) :
    EventLoop K κ γ :=
  { evlp with regEvents := Function.update evlp.regEvents fd eb }

/-- Enable read events or write events. Returns `0`, or `-1` on an error. -/
def eventEnableRw (evlp : EventLoop K κ γ) (fd : ℤ) (callback : κ) (context : γ)
    (mask : EventMask) : Except Panic (ℤ × EventLoop K κ γ) :=
  if fd < 0 then throw (.badFileDescriptor fd)
  else if fd ≥ evlp.size then pure (-1, evlp)
  else
    let eb := evlp.regEvents fd
    let op := if eb.mask = eventNone then .add else .mod
    let eb := { eb with mask := eb.mask.or mask }
    match epollCtl evlp.epfd op fd (epollEvents eb.mask) with
    | none => pure (-1, evlp.setEvent fd eb)
    | some epfd =>
      let eb := { eb with
        readCb := if mask.read then some callback else eb.readCb
        writeCb := if mask.write then some callback else eb.writeCb
        clientData := some context }
      pure (0, { evlp.setEvent fd eb with
        epfd := epfd, maxfd := if fd > evlp.maxfd then fd else evlp.maxfd })

/-- The highest descriptor below `n` with a mask, `-1` if there is none. -/
def lastRegistered (regEvents : ℤ → EventBase κ γ) : ℕ → ℤ
  | 0 => -1
  | j + 1 => if (regEvents j).mask ≠ eventNone then j else lastRegistered regEvents j

/-- Disable read events or write events. Returns `0`, or `-1` on an error. -/
def eventDisableRw (evlp : EventLoop K κ γ) (fd : ℤ) (mask : EventMask) :
    Except Panic (ℤ × EventLoop K κ γ) :=
  if fd < 0 then throw (.badFileDescriptor fd)
  else if fd ≥ evlp.size then pure (-1, evlp)
  else
    let eb := evlp.regEvents fd
    if eb.mask = eventNone then pure (0, evlp)
    else
      let delmask := eb.mask.without mask
      let op := if delmask ≠ eventNone then .mod else .del
      match epollCtl evlp.epfd op fd (epollEvents delmask) with
      | none => pure (-1, evlp)
      | some epfd =>
        let evlp := { evlp.setEvent fd { eb with mask := delmask } with epfd := epfd }
        if fd = evlp.maxfd ∧ delmask = eventNone then
          pure (0, { evlp with maxfd := lastRegistered evlp.regEvents evlp.maxfd.toNat })
        else pure (0, evlp)

/-- `evlp'` is `evlp` up to the slot of `fd`, which is `eb` if it is inside the table, up to
`maxfd`, and up to the kernel's set. -/
structure EventLoop.SlotSet (evlp evlp' : EventLoop K κ γ) (fd : ℤ) (eb : EventBase κ γ) :
    Prop where
  size : evlp'.size = evlp.size
  slot : evlp'.regEvents = if fd < evlp.size then Function.update evlp.regEvents fd eb
    else evlp.regEvents

omit [EpollCtl K] in
theorem EventLoop.SlotSet.of_ne {evlp evlp' : EventLoop K κ γ} {fd : ℤ} {eb : EventBase κ γ}
    (h : evlp.SlotSet evlp' fd eb) {fd' : ℤ} (hne : fd' ≠ fd) :
    evlp'.regEvents fd' = evlp.regEvents fd' := by
  rw [h.slot]
  split
  · rw [Function.update_of_ne hne]
  · rfl

omit [EpollCtl K] in
theorem EventLoop.SlotSet.self {evlp evlp' : EventLoop K κ γ} {fd : ℤ} {eb : EventBase κ γ}
    (h : evlp.SlotSet evlp' fd eb) (hfd : fd < evlp.size) : evlp'.regEvents fd = eb := by
  rw [h.slot, if_pos hfd, Function.update_self]

/-- A descriptor that is no descriptor panics, and nothing else does. -/
theorem eventEnableRw_spec [EpollOk K] (evlp : EventLoop K κ γ) (fd : ℤ) (callback : κ)
    (context : γ) (mask : EventMask) :
    (fd < 0 ∧ eventEnableRw evlp fd callback context mask = .error (.badFileDescriptor fd)) ∨
    ∃ r evlp', 0 ≤ fd ∧ eventEnableRw evlp fd callback context mask = .ok (r, evlp') ∧
      evlp.SlotSet evlp' fd
        { mask := (evlp.regEvents fd).mask.or mask
          readCb := if mask.read then some callback else (evlp.regEvents fd).readCb
          writeCb := if mask.write then some callback else (evlp.regEvents fd).writeCb
          clientData := some context } := by
  unfold eventEnableRw
  by_cases hneg : fd < 0
  · exact Or.inl ⟨hneg, by simp [hneg]; rfl⟩
  · right
    by_cases hsize : fd ≥ evlp.size
    · exact ⟨-1, evlp, not_lt.1 hneg, by simp [hneg, hsize]; rfl, rfl, by simp [not_lt.2 hsize]⟩
    · obtain ⟨epfd, hctl⟩ := Option.isSome_iff_exists.1 (EpollOk.isSome evlp.epfd
        (if (evlp.regEvents fd).mask = eventNone then .add else .mod) fd
        (epollEvents ((evlp.regEvents fd).mask.or mask)))
      simp only [hneg, hsize, if_false, hctl]
      exact ⟨0, _, not_lt.1 hneg, rfl, rfl, by simp [not_le.1 hsize, EventLoop.setEvent]⟩

/-- The mask of the slot loses what is disabled. -/
theorem eventDisableRw_spec [EpollOk K] (evlp : EventLoop K κ γ) (fd : ℤ) (mask : EventMask) :
    (fd < 0 ∧ eventDisableRw evlp fd mask = .error (.badFileDescriptor fd)) ∨
    ∃ r evlp', 0 ≤ fd ∧ eventDisableRw evlp fd mask = .ok (r, evlp') ∧
      evlp.SlotSet evlp' fd
        { evlp.regEvents fd with mask := (evlp.regEvents fd).mask.without mask } := by
  unfold eventDisableRw
  by_cases hneg : fd < 0
  · exact Or.inl ⟨hneg, by simp [hneg]; rfl⟩
  · right
    by_cases hsize : fd ≥ evlp.size
    · exact ⟨-1, evlp, not_lt.1 hneg, by simp [hneg, hsize]; rfl, rfl, by simp [not_lt.2 hsize]⟩
    · by_cases hnone : (evlp.regEvents fd).mask = eventNone
      · -- nothing was registered, and the slot keeps an empty mask
        refine ⟨0, evlp, not_lt.1 hneg, by simp [hneg, hsize, hnone]; rfl, rfl, ?_⟩
        have hmask : (evlp.regEvents fd).mask.without mask = (evlp.regEvents fd).mask := by
          rw [hnone]
          rfl
        rw [hmask, Function.update_eq_self, ite_self]
      · obtain ⟨epfd, hctl⟩ := Option.isSome_iff_exists.1 (EpollOk.isSome evlp.epfd
          (if (evlp.regEvents fd).mask.without mask ≠ eventNone then .mod else .del) fd
          (epollEvents ((evlp.regEvents fd).mask.without mask)))
        simp only [hneg, hsize, hnone, if_false, hctl]
        split
        · exact ⟨0, _, not_lt.1 hneg, rfl, rfl, by simp [not_le.1 hsize, EventLoop.setEvent]⟩
        · exact ⟨0, _, not_lt.1 hneg, rfl, rfl, by simp [not_le.1 hsize, EventLoop.setEvent]⟩

/-- What a call that returns has written. -/
theorem slotSet_of_eventDisableRw [EpollOk K] {evlp : EventLoop K κ γ} {fd : ℤ} {mask : EventMask}
    {r : ℤ × EventLoop K κ γ} (h : eventDisableRw evlp fd mask = .ok r) :
    evlp.SlotSet r.2 fd
      { evlp.regEvents fd with mask := (evlp.regEvents fd).mask.without mask } := by
  rcases eventDisableRw_spec evlp fd mask with ⟨-, herr⟩ | ⟨r', evlp', -, hok, hset⟩
  · cases herr.symm.trans h
  · obtain rfl := Except.ok.inj (hok.symm.trans h)
    exact hset

/-- An event that `epoll_wait` returns. -/
structure EpollEvent where
  fd : ℤ
  events : EpollEvents
  deriving DecidableEq

/-- The callback and the context that `event_wait` calls for an event, nothing if the event is
for no direction. -/
def eventCallback (evlp : EventLoop K κ γ) (e : EpollEvent) :
    Except Panic (Option (Option κ × Option γ)) :=
  if e.fd < 0 ∨ e.fd > evlp.maxfd then throw (.badFileDescriptor e.fd)
  else
    let eb := evlp.regEvents e.fd
    if e.events.epollin then pure (some (eb.readCb, eb.clientData))
    else if e.events.epollout then pure (some (eb.writeCb, eb.clientData))
    else pure none

/-! ## Timers -/

/-- A timer request, with the time it is due (`when`). -/
structure EventTimer (κ γ : Type) where
  due : ℤ
  callback : κ
  context : γ

/-- The cached time of day and the timer queue, in its order. -/
structure TimerQueue (κ γ : Type) where
  /-- `event_present` -/
  present : ℤ
  timers : List (EventTimer κ γ)

variable [DecidableEq κ] [DecidableEq γ]

/-- Empty the queue and look the time up. -/
def eventTimeInit (now : ℤ) : TimerQueue κ γ := ⟨now, []⟩

/-- The request is for this callback and context. -/
def EventTimer.isFor (callback : κ) (context : γ) (timer : EventTimer κ γ) : Bool :=
  timer.callback = callback ∧ timer.context = context

/-- (Re)set a timer, the clock reading `now`. Returns the time it is due. -/
def eventRequestTimer (q : TimerQueue κ γ) (callback : κ) (context : γ) (delay now : ℤ) :
    Except Panic (ℤ × TimerQueue κ γ) :=
  let q := if q.present = 0 then eventTimeInit now else q
  if delay < 0 then throw (.invalidDelay delay)
  else
    let timer : EventTimer κ γ := ⟨now + delay, callback, context⟩
    let timers := q.timers.eraseP (EventTimer.isFor callback context)
    pure (timer.due, ⟨now, timers.orderedInsert (fun a b => a.due < b.due) timer⟩)

/-- Cancel a timer. Returns the time left, `-1` if there was none. The time is not narrowed to an
`int`, as it is in memory (`TimerMem.eventCancelTimer`) : the sign of what is returned is the
same. -/
def eventCancelTimer (q : TimerQueue κ γ) (callback : κ) (context : γ) (now : ℤ) :
    ℤ × TimerQueue κ γ :=
  let q := if q.present = 0 then eventTimeInit now else q
  match q.timers.find? (EventTimer.isFor callback context) with
  | none => (-1, q)
  | some timer =>
    (if timer.due - q.present < 0 then 0 else timer.due - q.present,
      { q with timers := q.timers.eraseP (EventTimer.isFor callback context) })

omit [DecidableEq κ] [DecidableEq γ] in
/-- Take the first timer off the queue if its time has come, as the dispatch of `event_wait`
does before it calls the callback. -/
def eventFirstTimer (q : TimerQueue κ γ) : Option (EventTimer κ γ × TimerQueue κ γ) :=
  match q.timers with
  | [] => none
  | timer :: timers =>
    if timer.due > q.present then none else some (timer, { q with timers := timers })

end Nowra
