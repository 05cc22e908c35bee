import Nowra.Interest

/-!
# The kernel's interest set

The epoll set as a map from descriptors to events, in which an `ADD` fails if the descriptor is
there and a `MOD` or a `DEL` if it is not (`EpollSet`). On a kernel where nothing else fails, the
table of the loop, the set and `maxfd` agree after any calls of `event_enable_rw` and
`event_disable_rw`, and no call of `epoll_ctl` fails (`register_agrees`).

When a call fails for another reason, `event_disable_rw` leaves the loop as it was. But
`event_enable_rw` has put the new mask into the slot by then (`register_kept_iff`), so that it takes
the descriptor for one that the kernel knows. From then on all calls for the descriptor fail
(`refused_for_good`).
-/

namespace Nowra

/-! ## The kernel -/

/-- The descriptors of an epoll set, with the events asked for. -/
structure EpollSet where
  events : ℤ → Option EpollEvents

/-- `epoll_create` -/
def epollCreate : EpollSet := ⟨fun _ => none⟩

instance : EpollCtl EpollSet where
  epollCtl k op fd ev :=
    match op, k.events fd with
    | .add, none => some ⟨Function.update k.events fd (some ev)⟩
    | .mod, some _ => some ⟨Function.update k.events fd (some ev)⟩
    | .del, some _ => some ⟨Function.update k.events fd none⟩
    | .add, some _ => none
    | .mod, none => none
    | .del, none => none

theorem epollCtl_add {k : EpollSet} {fd : ℤ} (h : k.events fd = none) (ev : EpollEvents) :
    epollCtl k .add fd ev = some ⟨Function.update k.events fd (some ev)⟩ := by
  simp only [epollCtl, h]

theorem epollCtl_mod {k : EpollSet} {fd : ℤ} {ev' : EpollEvents} (h : k.events fd = some ev')
    (ev : EpollEvents) : epollCtl k .mod fd ev = some ⟨Function.update k.events fd (some ev)⟩ := by
  simp only [epollCtl, h]

theorem epollCtl_del {k : EpollSet} {fd : ℤ} {ev' : EpollEvents} (h : k.events fd = some ev')
    (ev : EpollEvents) : epollCtl k .del fd ev = some ⟨Function.update k.events fd none⟩ := by
  simp only [epollCtl, h]

/-- Nothing but an `ADD` works on a descriptor that is not there. -/
theorem epollCtl_absent {k : EpollSet} {fd : ℤ} (h : k.events fd = none) {op : EpollOp}
    (hop : op ≠ .add) (ev : EpollEvents) : epollCtl k op fd ev = none := by
  cases op with
  | add => exact absurd rfl hop
  | mod => simp only [epollCtl, h]
  | del => simp only [epollCtl, h]

/-! ## The calls -/

variable {K κ γ : Type} [EpollCtl K]

/-- A call for a descriptor. -/
inductive RegisterCall (κ γ : Type)
  | enable (fd : ℤ) (callback : κ) (context : γ) (mask : EventMask)
  | disable (fd : ℤ) (mask : EventMask)

namespace RegisterCall

/-- The descriptor. -/
def fd : RegisterCall κ γ → ℤ
  | enable fd _ _ _ => fd
  | disable fd _ => fd

/-- The mask. -/
def mask : RegisterCall κ γ → EventMask
  | enable _ _ _ mask => mask
  | disable _ mask => mask

/-- What the call does. -/
def exec (evlp : EventLoop K κ γ) : RegisterCall κ γ → Except Panic (ℤ × EventLoop K κ γ)
  | enable fd callback context mask => eventEnableRw evlp fd callback context mask
  | disable fd mask => eventDisableRw evlp fd mask

omit [EpollCtl K] in
/-- The operation that the call asks the kernel for, nothing if there is nothing to disable. -/
def epollOp (evlp : EventLoop K κ γ) : RegisterCall κ γ → Option EpollOp
  | enable fd _ _ _ => some (if (evlp.regEvents fd).mask = eventNone then .add else .mod)
  | disable fd mask =>
    if (evlp.regEvents fd).mask = eventNone then none
    else some (if (evlp.regEvents fd).mask.without mask ≠ eventNone then .mod else .del)

omit [EpollCtl K] in
/-- The descriptor is in the table, and the mask is not empty. -/
structure Ok (evlp : EventLoop K κ γ) (call : RegisterCall κ γ) : Prop where
  pos : 0 ≤ call.fd
  size : call.fd < evlp.size
  mask : call.mask ≠ eventNone

end RegisterCall

/-- Any calls on a new loop, over a kernel where nothing else fails. -/
def registerSystem (κ γ : Type) : LTS (EventLoop EpollSet κ γ) (RegisterCall κ γ) where
  init evlp := ∃ size, evlp = eventInit κ γ size epollCreate
  step evlp call evlp' := call.Ok evlp ∧ ∃ r, call.exec evlp = .ok (r, evlp')

/-- The kernel's answer to `event_enable_rw`. -/
def enableCtl (evlp : EventLoop K κ γ) (fd : ℤ) (mask : EventMask) : Option K :=
  epollCtl evlp.epfd (if (evlp.regEvents fd).mask = eventNone then .add else .mod) fd
    (epollEvents ((evlp.regEvents fd).mask.or mask))

/-- The kernel's answer to `event_disable_rw`. -/
def disableCtl (evlp : EventLoop K κ γ) (fd : ℤ) (mask : EventMask) : Option K :=
  epollCtl evlp.epfd (if (evlp.regEvents fd).mask.without mask ≠ eventNone then .mod else .del) fd
    (epollEvents ((evlp.regEvents fd).mask.without mask))

section

variable {evlp : EventLoop K κ γ} {fd : ℤ} (hpos : 0 ≤ fd) (hsize : fd < evlp.size)
  {mask : EventMask}

include hpos hsize

/-- The kernel accepts the new mask. -/
theorem eventEnableRw_of_some {epfd : K} (hctl : enableCtl evlp fd mask = some epfd)
    (callback : κ) (context : γ) : eventEnableRw evlp fd callback context mask =
      .ok (0, { evlp.setEvent fd
        { mask := (evlp.regEvents fd).mask.or mask
          readCb := if mask.read then some callback else (evlp.regEvents fd).readCb
          writeCb := if mask.write then some callback else (evlp.regEvents fd).writeCb
          clientData := some context } with
        epfd := epfd, maxfd := max fd evlp.maxfd }) := by
  have hmax : (if fd > evlp.maxfd then fd else evlp.maxfd) = max fd evlp.maxfd := by
    split <;> omega
  unfold enableCtl at hctl
  unfold eventEnableRw
  simp only [if_neg (not_lt.2 hpos), if_neg (not_le.2 hsize), hctl, hmax]
  rfl

/-- The kernel refuses it, and the slot has the new mask. -/
theorem eventEnableRw_of_none (hctl : enableCtl evlp fd mask = none)
    (callback : κ) (context : γ) : eventEnableRw evlp fd callback context mask =
      .ok (-1, evlp.setEvent fd
        { evlp.regEvents fd with mask := (evlp.regEvents fd).mask.or mask }) := by
  unfold enableCtl at hctl
  unfold eventEnableRw
  simp only [if_neg (not_lt.2 hpos), if_neg (not_le.2 hsize), hctl]
  rfl

theorem eventDisableRw_of_some (hmask : (evlp.regEvents fd).mask ≠ eventNone) {epfd : K}
    (hctl : disableCtl evlp fd mask = some epfd) : eventDisableRw evlp fd mask =
      .ok (0,
        let evlp' := { evlp.setEvent fd { evlp.regEvents fd with
          mask := (evlp.regEvents fd).mask.without mask } with epfd := epfd }
        { evlp' with
          maxfd := if fd = evlp.maxfd ∧ (evlp.regEvents fd).mask.without mask = eventNone then
            lastRegistered evlp'.regEvents evlp.maxfd.toNat else evlp.maxfd }) := by
  unfold disableCtl at hctl
  unfold eventDisableRw
  simp only [if_neg (not_lt.2 hpos), if_neg (not_le.2 hsize), if_neg hmask, hctl]
  split
  · rename_i hlast
    rw [if_pos (show fd = evlp.maxfd ∧ _ from hlast)]
    rfl
  · rename_i hlast
    rw [if_neg (show ¬(fd = evlp.maxfd ∧ _) from hlast)]
    rfl

theorem eventDisableRw_of_none (hmask : (evlp.regEvents fd).mask ≠ eventNone)
    (hctl : disableCtl evlp fd mask = none) : eventDisableRw evlp fd mask = .ok (-1, evlp) := by
  unfold disableCtl at hctl
  unfold eventDisableRw
  simp only [if_neg (not_lt.2 hpos), if_neg (not_le.2 hsize), if_neg hmask, hctl]
  rfl

theorem eventDisableRw_of_empty (hmask : (evlp.regEvents fd).mask = eventNone) :
    eventDisableRw evlp fd mask = .ok (0, evlp) := by
  unfold eventDisableRw
  simp only [if_neg (not_lt.2 hpos), if_neg (not_le.2 hsize), if_pos hmask]
  rfl

end

/-! ## The table, the set and `maxfd` -/

/-- A descriptor is in the kernel's set if it has a mask, for the events of the mask, and `maxfd` is
the last of them. -/
structure EventLoop.Agrees (evlp : EventLoop EpollSet κ γ) : Prop where
  kernel : ∀ fd ev, evlp.epfd.events fd = some ev ↔
    (evlp.regEvents fd).mask ≠ eventNone ∧ ev = epollEvents (evlp.regEvents fd).mask
  last : ∀ fd, (evlp.regEvents fd).mask ≠ eventNone → 0 ≤ fd ∧ fd ≤ evlp.maxfd
  maxfd : evlp.maxfd = -1 ∨ (evlp.regEvents evlp.maxfd).mask ≠ eventNone

theorem or_ne_eventNone {m m' : EventMask} (h : m' ≠ eventNone) : m.or m' ≠ eventNone := by
  obtain ⟨r, w, x, t⟩ := m
  obtain ⟨r', w', x', t'⟩ := m'
  simp only [EventMask.or, eventNone, ne_eq, EventMask.mk.injEq, Bool.or_eq_false_iff] at h ⊢
  tauto

/-- The scan ends at a descriptor with a mask, or finds none. -/
theorem lastRegistered_mask (regEvents : ℤ → EventBase κ γ) : ∀ n : ℕ,
    lastRegistered regEvents n = -1 ∨
      (regEvents (lastRegistered regEvents n)).mask ≠ eventNone
  | 0 => Or.inl rfl
  | j + 1 => by
    rw [lastRegistered]
    split
    · exact Or.inr ‹_›
    · exact lastRegistered_mask regEvents j

namespace EventLoop.Agrees

variable {evlp : EventLoop EpollSet κ γ} {fd : ℤ} {mask : EventMask}

theorem absent (h : evlp.Agrees) (hmask : (evlp.regEvents fd).mask = eventNone) :
    evlp.epfd.events fd = none := by
  by_contra hne
  obtain ⟨ev, hev⟩ := Option.ne_none_iff_exists'.1 hne
  exact ((h.kernel fd ev).1 hev).1 hmask

theorem present (h : evlp.Agrees) (hmask : (evlp.regEvents fd).mask ≠ eventNone) :
    evlp.epfd.events fd = some (epollEvents (evlp.regEvents fd).mask) :=
  (h.kernel fd _).2 ⟨hmask, rfl⟩

/-- A slot changes together with the events of its descriptor. -/
theorem kernel_of_slot (h : evlp.Agrees) {evlp' : EventLoop EpollSet κ γ} {eb : EventBase κ γ}
    (hreg : evlp'.regEvents = Function.update evlp.regEvents fd eb)
    (hset : evlp'.epfd.events = Function.update evlp.epfd.events fd
      (if eb.mask = eventNone then none else some (epollEvents eb.mask))) (fd' : ℤ)
    (ev : EpollEvents) : evlp'.epfd.events fd' = some ev ↔
      (evlp'.regEvents fd').mask ≠ eventNone ∧ ev = epollEvents (evlp'.regEvents fd').mask := by
  rcases eq_or_ne fd' fd with rfl | hne
  · rw [hreg, hset, Function.update_self, Function.update_self]
    split
    · simp [*]
    · rename_i hmask
      rw [Option.some.injEq, eq_comm]
      exact (and_iff_right hmask).symm
  · rw [hreg, hset, Function.update_of_ne hne, Function.update_of_ne hne]
    exact h.kernel fd' ev

/-- The kernel accepts an `ADD` or a `MOD` of the descriptor. -/
theorem enableCtl_eq (h : evlp.Agrees) (hmask : mask ≠ eventNone) :
    ∃ epfd, enableCtl evlp fd mask = some epfd ∧
      epfd.events = Function.update evlp.epfd.events fd
        (if (evlp.regEvents fd).mask.or mask = eventNone then none
          else some (epollEvents ((evlp.regEvents fd).mask.or mask))) := by
  rw [if_neg (or_ne_eventNone hmask)]
  unfold enableCtl
  by_cases hnone : (evlp.regEvents fd).mask = eventNone
  · rw [if_pos hnone]
    exact ⟨_, epollCtl_add (h.absent hnone) _, rfl⟩
  · rw [if_neg hnone]
    exact ⟨_, epollCtl_mod (h.present hnone) _, rfl⟩

/-- The kernel accepts a `MOD` or a `DEL` of the descriptor. -/
theorem disableCtl_eq (h : evlp.Agrees) (mask : EventMask)
    (hnone : (evlp.regEvents fd).mask ≠ eventNone) :
    ∃ epfd, disableCtl evlp fd mask = some epfd ∧
      epfd.events = Function.update evlp.epfd.events fd
        (if (evlp.regEvents fd).mask.without mask = eventNone then none
          else some (epollEvents ((evlp.regEvents fd).mask.without mask))) := by
  unfold disableCtl
  by_cases hdel : (evlp.regEvents fd).mask.without mask = eventNone
  · rw [if_neg (not_not.2 hdel), if_pos hdel]
    exact ⟨_, epollCtl_del (h.present hnone) _, rfl⟩
  · rw [if_pos hdel, if_neg hdel]
    exact ⟨_, epollCtl_mod (h.present hnone) _, rfl⟩

theorem enable (h : evlp.Agrees) (hpos : 0 ≤ fd) (hsize : fd < evlp.size) (hmask : mask ≠ eventNone)
    (callback : κ) (context : γ) :
    ∃ evlp', eventEnableRw evlp fd callback context mask = .ok (0, evlp') ∧ evlp'.Agrees := by
  obtain ⟨epfd, hctl, hset⟩ := h.enableCtl_eq hmask
  have hself : (Function.update evlp.regEvents fd
      { mask := (evlp.regEvents fd).mask.or mask
        readCb := if mask.read then some callback else (evlp.regEvents fd).readCb
        writeCb := if mask.write then some callback else (evlp.regEvents fd).writeCb
        clientData := some context } fd).mask ≠ eventNone := by
    rw [Function.update_self]
    exact or_ne_eventNone hmask
  refine ⟨_, eventEnableRw_of_some hpos hsize hctl callback context,
    h.kernel_of_slot rfl hset, fun fd' hfd' => ?_, Or.inr ?_⟩
  · rcases eq_or_ne fd' fd with rfl | hne
    · exact ⟨hpos, le_max_left _ _⟩
    · simp only [setEvent, Function.update_of_ne hne] at hfd'
      obtain ⟨hpos', hle⟩ := h.last fd' hfd'
      exact ⟨hpos', hle.trans (le_max_right _ _)⟩
  · -- `maxfd` is this descriptor, or what it was before
    rcases le_total evlp.maxfd fd with hle | hle
    · simp only [max_eq_left hle]
      exact hself
    · simp only [max_eq_right hle]
      rcases eq_or_ne evlp.maxfd fd with heq | hne
      · rw [heq]
        exact hself
      · simp only [setEvent, Function.update_of_ne hne]
        exact h.maxfd.resolve_left (by omega)

theorem disable (h : evlp.Agrees) (hpos : 0 ≤ fd) (hsize : fd < evlp.size) :
    ∃ evlp', eventDisableRw evlp fd mask = .ok (0, evlp') ∧ evlp'.Agrees := by
  by_cases hnone : (evlp.regEvents fd).mask = eventNone
  · exact ⟨evlp, eventDisableRw_of_empty hpos hsize hnone, h⟩
  obtain ⟨epfd, hctl, hset⟩ := h.disableCtl_eq mask hnone
  have hself : (Function.update evlp.regEvents fd { evlp.regEvents fd with
      mask := (evlp.regEvents fd).mask.without mask } fd).mask =
        (evlp.regEvents fd).mask.without mask := by
    rw [Function.update_self]
  refine ⟨_, eventDisableRw_of_some hpos hsize hnone hctl, h.kernel_of_slot rfl hset,
    fun fd' hfd' => ?_, ?_⟩
  · have hold : 0 ≤ fd' ∧ fd' ≤ evlp.maxfd := by
      rcases eq_or_ne fd' fd with rfl | hne
      · exact h.last fd' hnone
      · simp only [setEvent, Function.update_of_ne hne] at hfd'
        exact h.last fd' hfd'
    refine ⟨hold.1, ?_⟩
    simp only [setEvent] at hfd' ⊢
    split
    · rename_i hlast
      have hne : fd' ≠ fd := by
        rintro rfl
        exact hfd' (hself.trans hlast.2)
      exact le_lastRegistered hold.1 hfd' (by omega)
    · exact hold.2
  · simp only [setEvent]
    split
    · exact lastRegistered_mask _ _
    · rename_i hlast
      right
      rcases eq_or_ne evlp.maxfd fd with heq | hne
      · rw [heq, hself]
        exact fun hdel => hlast ⟨heq.symm, hdel⟩
      · rw [Function.update_of_ne hne]
        have hle := (h.last fd hnone).2
        exact h.maxfd.resolve_left (by omega)

/-- A call returns `0`. -/
theorem call (h : evlp.Agrees) {call : RegisterCall κ γ} (hok : call.Ok evlp) :
    ∃ evlp', call.exec evlp = .ok (0, evlp') ∧ evlp'.Agrees := by
  cases call with
  | enable fd callback context mask => exact h.enable hok.pos hok.size hok.mask callback context
  | disable fd mask => exact h.disable hok.pos hok.size

end EventLoop.Agrees

/-- In every state that calls can reach, a descriptor is in the kernel's set if and only if it has a
mask, for the events of the mask, `maxfd` is the last of these descriptors, or `-1`, and no call
fails. -/
theorem register_agrees {evlp : EventLoop EpollSet κ γ} (h : (registerSystem κ γ).Reach evlp) :
    (∀ fd, (evlp.epfd.events fd).isSome ↔ (evlp.regEvents fd).mask ≠ eventNone) ∧
    (∀ fd ev, evlp.epfd.events fd = some ev →
      ev.epollin = (evlp.regEvents fd).mask.read ∧ ev.epollout = (evlp.regEvents fd).mask.write) ∧
    (∀ fd, (evlp.regEvents fd).mask ≠ eventNone → fd ≤ evlp.maxfd) ∧
    ((evlp.regEvents evlp.maxfd).mask ≠ eventNone ∨
      evlp.maxfd = -1 ∧ ∀ fd, (evlp.regEvents fd).mask = eventNone) ∧
    ∀ call : RegisterCall κ γ, call.Ok evlp → ∃ evlp', call.exec evlp = .ok (0, evlp') := by
  have hagrees : evlp.Agrees := by
    refine h.invariant ?_ fun evlp call evlp' hs hst => ?_
    · rintro _ ⟨size, rfl⟩
      exact ⟨fun fd ev => iff_of_false nofun fun hev => hev.1 rfl,
        fun fd hfd => absurd rfl hfd, Or.inl rfl⟩
    · obtain ⟨hok, r, hr⟩ := hst
      obtain ⟨evlp'', hcall, hagrees⟩ := hs.call hok
      obtain ⟨-, rfl⟩ := Prod.mk.inj (Except.ok.inj (hcall.symm.trans hr))
      exact hagrees
  refine ⟨fun fd => ?_, fun fd ev hev => ?_, fun fd hfd => (hagrees.last fd hfd).2, ?_,
    fun call hok => ?_⟩
  · constructor
    · intro hsome
      obtain ⟨ev, hev⟩ := Option.isSome_iff_exists.1 hsome
      exact ((hagrees.kernel fd ev).1 hev).1
    · intro hmask
      rw [hagrees.present hmask]
      rfl
  · rw [((hagrees.kernel fd ev).1 hev).2]
    exact ⟨rfl, rfl⟩
  · rcases hagrees.maxfd with hnone | hmask
    · refine Or.inr ⟨hnone, fun fd => ?_⟩
      by_contra hfd
      have hrange := hagrees.last fd hfd
      omega
    · exact Or.inl hmask
  · obtain ⟨evlp', hcall, -⟩ := hagrees.call hok
    exact ⟨evlp', hcall⟩

/-- A call, if its descriptor is in the table and its mask is not empty. -/
def registerCall (evlp : EventLoop EpollSet κ γ) (call : RegisterCall κ γ) :
    Option (EventLoop EpollSet κ γ) :=
  if 0 ≤ call.fd ∧ call.fd < evlp.size ∧ call.mask ≠ eventNone then
    (call.exec evlp).toOption.map Prod.snd
  else none

theorem step_of_registerCall {evlp evlp' : EventLoop EpollSet κ γ} {call : RegisterCall κ γ}
    (h : registerCall evlp call = some evlp') : (registerSystem κ γ).step evlp call evlp' := by
  unfold registerCall at h
  split at h
  · rename_i hok
    obtain ⟨⟨r, evlp''⟩, hr, rfl⟩ := Option.map_eq_some_iff.1 h
    exact ⟨⟨hok.1, hok.2.1, hok.2.2⟩, r, toOption_eq_some hr⟩
  · cases h

/-- Two descriptors are registered, and the second one is given up. -/
theorem register_agrees_two : ∃ evlp : EventLoop EpollSet ℕ ℕ,
    (registerSystem ℕ ℕ).Reach evlp ∧ evlp.maxfd = 3 ∧ (evlp.epfd.events 3).isSome ∧
      ¬(evlp.epfd.events 7).isSome := by
  have hrun : ([.enable 3 0 0 eventRead, .enable 7 1 1 eventRead, .disable 7 eventRead].foldlM
      registerCall (eventInit ℕ ℕ 1024 epollCreate)).any (fun evlp => evlp.maxfd = 3 ∧
        (evlp.regEvents 3).mask ≠ eventNone ∧ (evlp.regEvents 7).mask = eventNone) = true := by
    decide +kernel
  obtain ⟨evlp, hevlp, hobs⟩ := (Option.any_eq_true _ _).1 hrun
  obtain ⟨hmaxfd, hthree, hseven⟩ := of_decide_eq_true hobs
  obtain ⟨tr, hp, -⟩ := LTS.Path.of_foldlM (fun _ _ _ => step_of_registerCall) hevlp
  have hreach : (registerSystem ℕ ℕ).Reach evlp := ⟨tr, _, ⟨1024, rfl⟩, hp⟩
  obtain ⟨hset, -⟩ := register_agrees hreach
  exact ⟨evlp, hreach, hmaxfd, (hset 3).2 hthree, fun h => (hset 7).1 h hseven⟩

/-! ## Calls that fail -/

/-- Where the call fails, the table and `maxfd` are as before, so that the call asks the kernel for
the same when it is made again. -/
def KeptOnFailure (evlp : EventLoop K κ γ) (call : RegisterCall κ γ) : Prop :=
  ∀ evlp', call.exec evlp = .ok (-1, evlp') → evlp'.regEvents = evlp.regEvents ∧
    evlp'.maxfd = evlp.maxfd ∧ call.epollOp evlp' = call.epollOp evlp

/-- A call of `event_enable_rw` for a descriptor in the table is not for anything new, or the kernel
accepts it. -/
def RegisterCall.Clean (evlp : EventLoop K κ γ) : RegisterCall κ γ → Prop
  | .enable fd _ _ mask => fd < 0 ∨ evlp.size ≤ fd ∨
    (evlp.regEvents fd).mask.or mask = (evlp.regEvents fd).mask ∨
    (enableCtl evlp fd mask).isSome
  | .disable _ _ => True

omit [EpollCtl K] in
/-- A slot that gets the mask it has stays the same. -/
theorem setEvent_mask_eq_iff (evlp : EventLoop K κ γ) (fd : ℤ) (mask : EventMask) :
    (evlp.setEvent fd { evlp.regEvents fd with mask := mask }).regEvents = evlp.regEvents ↔
      mask = (evlp.regEvents fd).mask := by
  constructor
  · intro h
    have hfd := congrFun h fd
    simp only [EventLoop.setEvent, Function.update_self] at hfd
    exact congrArg EventBase.mask hfd
  · rintro rfl
    exact Function.update_eq_self ..

/-- A failed call of `event_disable_rw` changes nothing. One of `event_enable_rw` changes nothing if
and only if the descriptor is outside the table or the slot has the mask already. -/
theorem register_kept_iff (evlp : EventLoop K κ γ) (call : RegisterCall κ γ) :
    KeptOnFailure evlp call ↔ call.Clean evlp := by
  cases call with
  | disable fd mask =>
    refine iff_of_true (fun evlp' hr => ?_) trivial
    rcases eventDisableRw_ok hr with heq | ⟨epfd, maxfd, heq, -⟩
    · obtain ⟨-, rfl⟩ := Prod.mk.inj heq
      exact ⟨rfl, rfl, rfl⟩
    · cases (Prod.mk.inj heq).1
  | enable fd callback context mask =>
    rcases lt_or_ge fd 0 with hneg | hpos
    · refine iff_of_true (fun evlp' hr => ?_) (Or.inl hneg)
      cases (if_pos hneg).symm.trans hr
    rcases le_or_gt evlp.size fd with hge | hsize
    · refine iff_of_true (fun evlp' hr => ?_) (Or.inr (Or.inl hge))
      have hfail : eventEnableRw evlp fd callback context mask = .ok (-1, evlp) :=
        (if_neg hpos.not_gt).trans (if_pos hge)
      obtain ⟨-, rfl⟩ := Prod.mk.inj (Except.ok.inj (hfail.symm.trans hr))
      exact ⟨rfl, rfl, rfl⟩
    cases hctl : enableCtl evlp fd mask with
    | some epfd =>
      refine iff_of_true (fun evlp' hr => ?_) (Or.inr (Or.inr (Or.inr (by rw [hctl]; rfl))))
      have hok := eventEnableRw_of_some hpos hsize hctl callback context
      cases (Prod.mk.inj (Except.ok.inj (hok.symm.trans hr))).1
    | none =>
      have hfail := eventEnableRw_of_none hpos hsize hctl callback context
      constructor
      · -- the slot has the new mask
        intro hkept
        exact Or.inr (Or.inr (Or.inl ((setEvent_mask_eq_iff evlp fd _).1 (hkept _ hfail).1)))
      · intro hclean evlp' hr
        obtain ⟨-, rfl⟩ := Prod.mk.inj (Except.ok.inj (hfail.symm.trans hr))
        have hmask : (evlp.regEvents fd).mask.or mask = (evlp.regEvents fd).mask := by
          rcases hclean with h | h | h | h
          · omega
          · omega
          · exact h
          · rw [hctl] at h
            cases h
        have hreg := (setEvent_mask_eq_iff evlp fd _).2 hmask
        refine ⟨hreg, rfl, ?_⟩
        simp only [RegisterCall.epollOp, hreg]

/-- A kernel that refuses new descriptors as long as there is no memory for them. -/
structure EpollMem where
  set : EpollSet
  full : Bool

instance : EpollCtl EpollMem where
  epollCtl k op fd ev :=
    if op = .add ∧ k.full then none else (epollCtl k.set op fd ev).map fun set => ⟨set, k.full⟩

/-- There is memory again. -/
def EventLoop.recover (evlp : EventLoop EpollMem κ γ) : EventLoop EpollMem κ γ :=
  { evlp with epfd := ⟨evlp.epfd.set, false⟩ }

/-- There is no memory when a descriptor is registered. Later there is, and the same call would be
accepted if it had not been made before. But as it was, it fails, and the interest cannot be given
up either. -/
theorem not_register_kept : ∃ evlp' : EventLoop EpollMem ℕ ℕ,
    eventEnableRw (eventInit ℕ ℕ 1024 ⟨epollCreate, true⟩) 5 0 0 eventRead = .ok (-1, evlp') ∧
    ¬KeptOnFailure (eventInit ℕ ℕ 1024 (⟨epollCreate, true⟩ : EpollMem))
      (.enable 5 0 0 eventRead) ∧
    (eventEnableRw (eventInit ℕ ℕ 1024 (⟨epollCreate, true⟩ : EpollMem)).recover 5 0 0
      eventRead).toOption.map Prod.fst = some 0 ∧
    (eventEnableRw evlp'.recover 5 0 0 eventRead).toOption.map Prod.fst = some (-1) ∧
    (eventDisableRw evlp'.recover 5 eventRead).toOption.map Prod.fst = some (-1) := by
  refine ⟨_, rfl, fun hkept => ?_, by decide, by decide, by decide⟩
  have hmask := (setEvent_mask_eq_iff _ 5 _).1 (hkept _ rfl).1
  revert hmask
  decide

/-! ## Interest that was refused -/

/-- An epoll set in a kernel that may refuse a call for some other reason. -/
structure Refusing where
  set : EpollSet
  refuses : Bool

instance : EpollCtl Refusing where
  epollCtl k op fd ev :=
    if k.refuses then none else (epollCtl k.set op fd ev).map fun set => ⟨set, k.refuses⟩

/-- The kernel's mood at the next call. -/
def EventLoop.refusing (evlp : EventLoop Refusing κ γ) (refuses : Bool) :
    EventLoop Refusing κ γ :=
  { evlp with epfd := ⟨evlp.epfd.set, refuses⟩ }

/-- Any calls on a new loop, each of which the kernel may refuse. -/
def refusingSystem (κ γ : Type) : LTS (EventLoop Refusing κ γ) (RegisterCall κ γ × Bool) where
  init evlp := ∃ size, evlp = eventInit κ γ size ⟨epollCreate, false⟩
  step evlp a evlp' := ∃ r, a.1.exec (evlp.refusing a.2) = .ok (r, evlp')

/-- One call. -/
def refusingCall (evlp : EventLoop Refusing κ γ) (a : RegisterCall κ γ × Bool) :
    Option (EventLoop Refusing κ γ) :=
  (a.1.exec (evlp.refusing a.2)).toOption.map Prod.snd

theorem step_of_refusingCall {evlp evlp' : EventLoop Refusing κ γ} {a : RegisterCall κ γ × Bool}
    (h : refusingCall evlp a = some evlp') : (refusingSystem κ γ).step evlp a evlp' := by
  obtain ⟨⟨r, _⟩, hr, rfl⟩ := Option.map_eq_some_iff.1 h
  exact ⟨r, toOption_eq_some hr⟩

/-- What the kernel accepts, the set accepts. -/
theorem set_of_epollCtl {k k' : Refusing} {op : EpollOp} {fd : ℤ} {ev : EpollEvents}
    (h : epollCtl k op fd ev = some k') : epollCtl k.set op fd ev = some k'.set := by
  simp only [epollCtl] at h
  split at h
  · cases h
  · obtain ⟨set, hset, rfl⟩ := Option.map_eq_some_iff.1 h
    exact hset

/-- What the set refuses, the kernel refuses. -/
theorem epollCtl_of_set {k : Refusing} {op : EpollOp} {fd : ℤ} {ev : EpollEvents}
    (h : epollCtl k.set op fd ev = none) : epollCtl k op fd ev = none := by
  cases hk : epollCtl k op fd ev with
  | none => rfl
  | some k' => cases h.symm.trans (set_of_epollCtl hk)

/-- The set after a call that it has accepted. -/
theorem epollCtl_events {k k' : EpollSet} {op : EpollOp} {fd : ℤ} {ev : EpollEvents}
    (h : epollCtl k op fd ev = some k') :
    k'.events = Function.update k.events fd (if op = .del then none else some ev) ∧
      (op ≠ .add → (k.events fd).isSome = true) := by
  simp only [epollCtl] at h
  split at h
  · obtain rfl := Option.some.inj h
    exact ⟨rfl, fun hadd => absurd rfl hadd⟩
  · rename_i ev' hev
    obtain rfl := Option.some.inj h
    exact ⟨rfl, fun _ => by rw [hev]; rfl⟩
  · rename_i ev' hev
    obtain rfl := Option.some.inj h
    exact ⟨rfl, fun _ => by rw [hev]; rfl⟩
  · cases h
  · cases h
  · cases h

theorem or_ne_eventNone_of_left {m : EventMask} (h : m ≠ eventNone) (m' : EventMask) :
    m.or m' ≠ eventNone := by
  obtain ⟨r, w, x, t⟩ := m
  obtain ⟨r', w', x', t'⟩ := m'
  simp only [EventMask.or, eventNone, ne_eq, EventMask.mk.injEq, Bool.or_eq_false_iff] at h ⊢
  tauto

/-- The slot has a mask, and the kernel does not have the descriptor. -/
structure EventLoop.Stuck (evlp : EventLoop Refusing κ γ) (fd : ℤ) : Prop where
  mask : (evlp.regEvents fd).mask ≠ eventNone
  absent : evlp.epfd.set.events fd = none

/-- A descriptor outside the table is refused. -/
theorem RegisterCall.exec_of_size {evlp : EventLoop K κ γ} {call : RegisterCall κ γ}
    (hpos : 0 ≤ call.fd) (hsize : evlp.size ≤ call.fd) : call.exec evlp = .ok (-1, evlp) := by
  cases call with
  | enable fd callback context mask => exact (if_neg hpos.not_gt).trans (if_pos hsize)
  | disable fd mask => exact (if_neg hpos.not_gt).trans (if_pos hsize)

/-- No call is made for a negative descriptor. -/
theorem RegisterCall.pos_of_exec {evlp : EventLoop K κ γ} {call : RegisterCall κ γ}
    {r : ℤ × EventLoop K κ γ} (h : call.exec evlp = .ok r) : 0 ≤ call.fd := by
  by_contra hneg
  cases call with
  | enable fd callback context mask => cases (if_pos (not_le.1 hneg)).symm.trans h
  | disable fd mask => cases (if_pos (not_le.1 hneg)).symm.trans h

namespace EventLoop.Stuck

variable {evlp : EventLoop Refusing κ γ} {fd : ℤ} {call : RegisterCall κ γ}

/-- A call for the descriptor fails, and it stays like that. -/
theorem refused (h : evlp.Stuck fd) (hpos : 0 ≤ fd) (hfd : call.fd = fd) :
    ∃ evlp', call.exec evlp = .ok (-1, evlp') ∧ evlp'.Stuck fd := by
  subst hfd
  rcases le_or_gt evlp.size call.fd with hge | hsize
  · exact ⟨evlp, RegisterCall.exec_of_size hpos hge, h⟩
  cases call with
  | enable fd callback context mask =>
    have hctl : enableCtl evlp fd mask = none := by
      refine epollCtl_of_set (epollCtl_absent h.absent ?_ _)
      exact (if_neg h.mask).trans_ne (by decide)
    refine ⟨_, eventEnableRw_of_none hpos hsize hctl callback context, ?_, h.absent⟩
    simp only [setEvent, RegisterCall.fd, Function.update_self]
    exact or_ne_eventNone_of_left h.mask mask
  | disable fd mask =>
    have hctl : disableCtl evlp fd mask = none := by
      refine epollCtl_of_set (epollCtl_absent h.absent ?_ _)
      split
      · decide
      · decide
    exact ⟨evlp, eventDisableRw_of_none hpos hsize h.mask hctl, h⟩

theorem refusing (h : evlp.Stuck fd) (refuses : Bool) : (evlp.refusing refuses).Stuck fd :=
  ⟨h.mask, h.absent⟩

/-- A slot and a set that are changed for another descriptor. -/
theorem of_ne (h : evlp.Stuck fd) {fd' : ℤ} (hne : fd ≠ fd') {evlp' : EventLoop Refusing κ γ}
    {eb : EventBase κ γ} (hreg : evlp'.regEvents = Function.update evlp.regEvents fd' eb)
    (hset : evlp'.epfd.set.events fd = evlp.epfd.set.events fd) : evlp'.Stuck fd := by
  refine ⟨?_, hset.trans h.absent⟩
  rw [hreg, Function.update_of_ne hne]
  exact h.mask

/-- Only the descriptor of the call changes in the set. -/
theorem events_of_ne {k k' : Refusing} {op : EpollOp} {fd' : ℤ} {ev : EpollEvents}
    (h : epollCtl k op fd' ev = some k') (hne : fd ≠ fd') :
    k'.set.events fd = k.set.events fd := by
  rw [(epollCtl_events (set_of_epollCtl h)).1, Function.update_of_ne hne]

/-- A call for another descriptor does not change it. -/
theorem other (h : evlp.Stuck fd) (hne : fd ≠ call.fd)
    {r : ℤ × EventLoop Refusing κ γ} (hr : call.exec evlp = .ok r) : r.2.Stuck fd := by
  have hpos := RegisterCall.pos_of_exec hr
  rcases le_or_gt evlp.size call.fd with hge | hsize
  · obtain rfl := Except.ok.inj ((RegisterCall.exec_of_size hpos hge).symm.trans hr)
    exact h
  cases call with
  | enable fd' callback context mask =>
    cases hctl : enableCtl evlp fd' mask with
    | none =>
      obtain rfl := Except.ok.inj
        ((eventEnableRw_of_none hpos hsize hctl callback context).symm.trans hr)
      exact h.of_ne hne rfl rfl
    | some epfd =>
      obtain rfl := Except.ok.inj
        ((eventEnableRw_of_some hpos hsize hctl callback context).symm.trans hr)
      exact h.of_ne hne rfl (events_of_ne hctl hne)
  | disable fd' mask =>
    by_cases hmask : (evlp.regEvents fd').mask = eventNone
    · obtain rfl := Except.ok.inj ((eventDisableRw_of_empty hpos hsize hmask).symm.trans hr)
      exact h
    cases hctl : disableCtl evlp fd' mask with
    | none =>
      obtain rfl := Except.ok.inj ((eventDisableRw_of_none hpos hsize hmask hctl).symm.trans hr)
      exact h
    | some epfd =>
      obtain rfl := Except.ok.inj ((eventDisableRw_of_some hpos hsize hmask hctl).symm.trans hr)
      exact h.of_ne hne rfl (events_of_ne hctl hne)

/-- A refused call of `event_enable_rw` for a descriptor that the kernel does not have. -/
theorem of_refused {callback : κ} {context : γ} {mask : EventMask}
    {evlp' : EventLoop Refusing κ γ}
    (hr : eventEnableRw evlp fd callback context mask = .ok (-1, evlp')) (hmask : mask ≠ eventNone)
    (hsize : fd < evlp.size) (habsent : evlp.epfd.set.events fd = none) : evlp'.Stuck fd := by
  have hpos : 0 ≤ fd := (eventEnableRw_ok hr).1
  cases hctl : enableCtl evlp fd mask with
  | none =>
    obtain ⟨-, rfl⟩ := Prod.mk.inj
      (Except.ok.inj ((eventEnableRw_of_none hpos hsize hctl callback context).symm.trans hr))
    refine ⟨?_, habsent⟩
    simp only [setEvent, Function.update_self]
    exact or_ne_eventNone hmask
  | some epfd =>
    have hok := eventEnableRw_of_some hpos hsize hctl callback context
    cases (Prod.mk.inj (Except.ok.inj (hok.symm.trans hr))).1

end EventLoop.Stuck

/-- Once a call of `event_enable_rw` for a descriptor that the kernel does not have was refused,
every later call for the descriptor fails, whatever calls come in between and whatever the kernel
would accept by then. -/
theorem refused_for_good {evlp evlp₀ evlp₁ : EventLoop Refusing κ γ}
    {tr pre post :
      List (EventLoop Refusing κ γ × (RegisterCall κ γ × Bool) × EventLoop Refusing κ γ)}
    {fd : ℤ} {callback : κ} {context : γ} {mask : EventMask} {refuses : Bool}
    (h : (refusingSystem κ γ).Run tr evlp)
    (htr : tr = pre ++ (evlp₀, (.enable fd callback context mask, refuses), evlp₁) :: post)
    (hmask : mask ≠ eventNone) (hsize : fd < evlp₀.size)
    (habsent : evlp₀.epfd.set.events fd = none)
    (hrefused : eventEnableRw (evlp₀.refusing refuses) fd callback context mask = .ok (-1, evlp₁))
    (call : RegisterCall κ γ) (refuses' : Bool) (hfd : call.fd = fd) :
    ∃ evlp', call.exec (evlp.refusing refuses') = .ok (-1, evlp') := by
  have hpos : 0 ≤ fd := (eventEnableRw_ok hrefused).1
  obtain ⟨s, -, hp⟩ := h
  obtain ⟨-, -, hpost⟩ := hp.of_append_cons htr
  have hstuck : evlp.Stuck fd := by
    refine (hpost.invariant (P := (EventLoop.Stuck · fd))
      (EventLoop.Stuck.of_refused hrefused hmask hsize habsent) fun evlp a evlp' hs hst => ?_).1
    obtain ⟨r, hr⟩ := hst
    rcases eq_or_ne a.1.fd fd with heq | hne
    · obtain ⟨evlp'', hcall, hs'⟩ := (hs.refusing a.2).refused hpos heq
      obtain ⟨-, rfl⟩ := Prod.mk.inj (Except.ok.inj (hcall.symm.trans hr))
      exact hs'
    · exact (hs.refusing a.2).other hne.symm hr
  obtain ⟨evlp', hcall, -⟩ := (hstuck.refusing refuses').refused hpos hfd
  exact ⟨evlp', hcall⟩

/-- A descriptor is refused, and another one is accepted after it. The first one is refused when it
is registered again, though the kernel would accept it. -/
theorem refused_for_good_two : ∃ evlp evlp' : EventLoop Refusing ℕ ℕ,
    eventEnableRw ((eventInit ℕ ℕ 1024 ⟨epollCreate, false⟩).refusing true) 5 0 0 eventRead =
      .ok (-1, evlp) ∧
    eventEnableRw (evlp.refusing false) 6 1 1 eventRead = .ok (0, evlp') ∧
    ∃ evlp'', eventEnableRw (evlp'.refusing false) 5 0 0 eventRead = .ok (-1, evlp'') := by
  refine ⟨_, _, rfl, rfl, ?_⟩
  have hrun : (refusingSystem ℕ ℕ).Run _ _ :=
    ⟨_, ⟨1024, rfl⟩, .cons (a := (.enable 5 0 0 eventRead, true)) ⟨_, rfl⟩
      (.single (a := (.enable 6 1 1 eventRead, false)) ⟨_, rfl⟩)⟩
  exact refused_for_good hrun (List.nil_append _).symm (by decide) (by decide) rfl rfl
    (.enable 5 0 0 eventRead) false rfl

end Nowra
