import Nowra.Epoll

/-!
# Which ready directions are served

A batch of `epoll_wait` has an event for each descriptor that is ready, with the directions it is
ready for, among those that the kernel was asked for (`Reported`). If the callbacks leave the
registrations as they are, `event_wait` dispatches the batch by the table it found
(`eventDispatch`). It calls one callback for each event : the one for reading, `else` the one for
writing.

So a descriptor that is ready for both at once is not served for writing. And the kernel may have
been asked for a direction that no callback was ever registered for : `event_enable_rw` puts its
mask into the slot before `epoll_ctl` refuses it, and the next call for the descriptor asks for the
whole mask. Everything else that is ready is served, unless a call with an empty mask has left a
descriptor above `maxfd` (`dispatch_serves_iff`).
-/

namespace Nowra

variable {K κ γ : Type} [EpollCtl K]

/-- A callback is called on a descriptor and a context. -/
structure EventCall (κ γ : Type) where
  fd : ℤ
  direction : Direction
  callback : Option κ
  context : Option γ

omit [EpollCtl K] in
/-- The dispatch of `event_wait`, for callbacks that leave the loop as it is. -/
def eventDispatch (evlp : EventLoop K κ γ) : List EpollEvent → Except Panic (List (EventCall κ γ))
  | [] => pure []
  | e :: batch => do
    let call ← eventCallback evlp e
    let calls ← eventDispatch evlp batch
    match call with
    | some (callback, context) => pure (⟨e.fd, e.direction, callback, context⟩ :: calls)
    | none => pure calls

/-- The kernel reports each descriptor once, one of its set, and the directions that it is ready for
are among those that it was asked for. There are none when it only has an error. -/
def Reported (k : EpollSet) (batch : List EpollEvent) : Prop :=
  (batch.map (·.fd)).Nodup ∧ ∀ e ∈ batch, ∃ ev, k.events e.fd = some ev ∧
    ∀ d, e.events.has d = true → ev.has d = true

omit [EpollCtl K] in
/-- Each direction that is ready and has its bit in the mask has its callback called once, on the
context of the slot, and the descriptors have their turn in the order of the batch. -/
structure Served (evlp : EventLoop K κ γ) (batch : List EpollEvent) (calls : List (EventCall κ γ)) :
    Prop where
  once : ∀ e ∈ batch, ∀ d, e.events.has d = true → (evlp.regEvents e.fd).mask.has d = true →
    calls.countP (fun c => c.fd = e.fd ∧ c.direction = d) = 1
  callback : ∀ c ∈ calls, c.callback = (evlp.regEvents c.fd).callback c.direction ∧
    c.callback.isSome ∧ c.context = (evlp.regEvents c.fd).clientData ∧ c.context.isSome
  order : (calls.map (·.fd)).Pairwise fun fd fd' =>
    (batch.map (·.fd)).idxOf fd ≤ (batch.map (·.fd)).idxOf fd'

/-- The dispatch returns, and has served all that is ready. -/
def ServesAll (evlp : EventLoop K κ γ) (batch : List EpollEvent) : Prop :=
  ∃ calls, eventDispatch evlp batch = .ok calls ∧ Served evlp batch calls

/-! ## The calls of a batch -/

section

omit [EpollCtl K]

variable {evlp : EventLoop K κ γ} {batch : List EpollEvent}

/-- The call for an event, if it is for a direction. -/
def dispatchCall (evlp : EventLoop K κ γ) (e : EpollEvent) : Option (EventCall κ γ) :=
  if e.events.has e.direction = true then
    some ⟨e.fd, e.direction, (evlp.regEvents e.fd).callback e.direction,
      (evlp.regEvents e.fd).clientData⟩
  else none

theorem dispatchCall_eq_some_iff {e : EpollEvent} {c : EventCall κ γ} :
    dispatchCall evlp e = some c ↔ e.events.has e.direction = true ∧
      c = ⟨e.fd, e.direction, (evlp.regEvents e.fd).callback e.direction,
        (evlp.regEvents e.fd).clientData⟩ := by
  unfold dispatchCall
  split
  · rw [Option.some.injEq, eq_comm]
    exact (and_iff_right ‹_›).symm
  · exact iff_of_false nofun fun h => ‹¬_› h.1

/-- Nothing is called for an event without a direction. -/
theorem eventCallback_eq_none {e : EpollEvent} (hpos : 0 ≤ e.fd) (hmax : e.fd ≤ evlp.maxfd)
    (hdir : ¬e.events.has e.direction = true) : eventCallback evlp e = .ok none := by
  have hnone : ∀ d, ¬e.events.has d = true := fun d hd => hdir (EpollEvent.has_direction hd)
  have hin : ¬e.events.epollin = true := hnone .read
  have hout : ¬e.events.epollout = true := hnone .write
  unfold eventCallback
  simp only [if_neg (show ¬(e.fd < 0 ∨ e.fd > evlp.maxfd) by omega), if_neg hin, if_neg hout]
  rfl

/-- The batch is dispatched event by event. -/
theorem eventDispatch_eq (hrange : ∀ e ∈ batch, 0 ≤ e.fd ∧ e.fd ≤ evlp.maxfd) :
    eventDispatch evlp batch = .ok (batch.filterMap (dispatchCall evlp)) := by
  induction batch with
  | nil => rfl
  | cons e batch ih =>
    obtain ⟨⟨hpos, hmax⟩, hrest⟩ := List.forall_mem_cons.1 hrange
    rw [eventDispatch, ih hrest, List.filterMap_cons]
    by_cases hdir : e.events.has e.direction = true
    · rw [eventCallback_eq hpos hmax hdir, dispatchCall, if_pos hdir]
      rfl
    · rw [eventCallback_eq_none hpos hmax hdir, dispatchCall, if_neg hdir]
      rfl

/-- A dispatch that returns has found every descriptor in range. -/
theorem range_of_eventDispatch {calls : List (EventCall κ γ)}
    (h : eventDispatch evlp batch = .ok calls) : ∀ e ∈ batch, e.fd ≤ evlp.maxfd := by
  induction batch generalizing calls with
  | nil => simp
  | cons e batch ih =>
    rw [eventDispatch] at h
    by_cases hmax : e.fd ≤ evlp.maxfd
    · refine List.forall_mem_cons.2 ⟨hmax, ?_⟩
      cases hrest : eventDispatch evlp batch with
      | ok calls' => exact ih hrest
      | error p =>
        rw [hrest] at h
        cases hcall : eventCallback evlp e with
        | ok call => rw [hcall] at h; cases h
        | error p' => rw [hcall] at h; cases h
    · rw [eventCallback, if_pos (Or.inr (not_le.1 hmax))] at h
      cases h

/-- A descriptor that is not in the batch is not called. -/
theorem countP_of_notMem {fd : ℤ} (h : fd ∉ batch.map (·.fd)) (d : Direction) :
    (batch.filterMap (dispatchCall evlp)).countP (fun c => c.fd = fd ∧ c.direction = d) = 0 := by
  refine List.countP_eq_zero.2 fun c hc hfd => h ?_
  obtain ⟨e, he, hcall⟩ := List.mem_filterMap.1 hc
  obtain ⟨-, rfl⟩ := dispatchCall_eq_some_iff.1 hcall
  exact List.mem_map.2 ⟨e, he, (of_decide_eq_true hfd).1⟩

/-- A descriptor of the batch is called for one direction at most, the one it is dispatched for. -/
theorem countP_dispatchCall (hnd : (batch.map (·.fd)).Nodup) {e : EpollEvent} (he : e ∈ batch)
    {d : Direction} (hd : e.events.has d = true) :
    (batch.filterMap (dispatchCall evlp)).countP (fun c => c.fd = e.fd ∧ c.direction = d) =
      if e.direction = d then 1 else 0 := by
  obtain ⟨l₁, l₂, rfl⟩ := List.append_of_mem he
  rw [List.map_append, List.map_cons, List.nodup_middle, List.nodup_cons, List.mem_append,
    not_or] at hnd
  obtain ⟨⟨hn₁, hn₂⟩, -⟩ := hnd
  have hcall : dispatchCall evlp e = some _ := if_pos (EpollEvent.has_direction hd)
  rw [List.filterMap_append, List.countP_append, List.filterMap_cons_some hcall, List.countP_cons,
    countP_of_notMem hn₁, countP_of_notMem hn₂, Nat.zero_add, Nat.zero_add]
  simp

/-- The descriptors are called in the order of the batch. -/
theorem pairwise_dispatchCall (hnd : (batch.map (·.fd)).Nodup) :
    ((batch.filterMap (dispatchCall evlp)).map (·.fd)).Pairwise fun fd fd' =>
      (batch.map (·.fd)).idxOf fd ≤ (batch.map (·.fd)).idxOf fd' := by
  have hall : (batch.map (·.fd)).Pairwise fun fd fd' =>
      (batch.map (·.fd)).idxOf fd ≤ (batch.map (·.fd)).idxOf fd' := by
    refine List.pairwise_iff_getElem.2 fun i j hi hj hij => ?_
    rw [hnd.idxOf_getElem, hnd.idxOf_getElem]
    exact hij.le
  refine hall.sublist ?_
  clear hnd hall
  induction batch with
  | nil => exact List.Sublist.slnil
  | cons e batch ih =>
    cases hcall : dispatchCall evlp e with
    | none =>
      rw [List.filterMap_cons_none hcall]
      exact ih.cons _
    | some c =>
      rw [List.filterMap_cons_some hcall]
      obtain ⟨-, rfl⟩ := dispatchCall_eq_some_iff.1 hcall
      exact ih.cons_cons _

/-- A descriptor that is ready and registered for both directions is not called for writing. -/
theorem not_servesAll (hrange : ∀ e ∈ batch, 0 ≤ e.fd ∧ e.fd ≤ evlp.maxfd)
    (hnd : (batch.map (·.fd)).Nodup) {e : EpollEvent} (he : e ∈ batch)
    (hread : e.events.has .read = true) (hwrite : e.events.has .write = true)
    (hmask : (evlp.regEvents e.fd).mask.has .write = true) : ¬ServesAll evlp batch := by
  rintro ⟨calls, hcalls, hserved⟩
  obtain rfl := Except.ok.inj ((eventDispatch_eq hrange).symm.trans hcalls)
  have hdir : e.direction = .read := if_pos hread
  have hone := hserved.once e he .write hwrite hmask
  rw [countP_dispatchCall hnd he hwrite, hdir] at hone
  cases hone

/-- An event that is not for both directions is dispatched for the one that it is for. -/
theorem direction_eq {e : EpollEvent} {d : Direction} (hd : e.events.has d = true)
    (hone : ¬(e.events.has .read = true ∧ e.events.has .write = true)) : e.direction = d := by
  cases d with
  | read => exact if_pos hd
  | write => exact if_neg fun hread => hone ⟨hread, hd⟩

end

/-! ## What the kernel was asked for -/

/-- The descriptors of the set have a slot with a context, and the events asked for are among those
of its mask. -/
structure EventLoop.Covers (evlp : EventLoop Refusing κ γ) : Prop where
  mask : ∀ fd ev, evlp.epfd.set.events fd = some ev →
    ∀ d, ev.has d = true → (evlp.regEvents fd).mask.has d = true
  context : ∀ fd ev, evlp.epfd.set.events fd = some ev →
    (evlp.regEvents fd).clientData.isSome = true
  pos : ∀ fd ev, evlp.epfd.set.events fd = some ev → 0 ≤ fd

/-- The descriptors of the set have a mask, and none of them is above `maxfd`. -/
def EventLoop.Below (evlp : EventLoop Refusing κ γ) : Prop :=
  ∀ fd ev, evlp.epfd.set.events fd = some ev →
    (evlp.regEvents fd).mask ≠ eventNone ∧ fd ≤ evlp.maxfd

section

variable {evlp evlp' : EventLoop Refusing κ γ} {fd : ℤ} {mask : EventMask} {k : Refusing}
  {op : EpollOp} {eb : EventBase κ γ} {r : ℤ × EventLoop Refusing κ γ}

/-- The set after a call that the kernel has accepted. -/
theorem events_of_epollCtl {ev ev' : EpollEvents} {fd' : ℤ}
    (hctl : epollCtl evlp.epfd op fd ev = some k) (hev : k.set.events fd' = some ev') :
    (fd' = fd ∧ op ≠ .del ∧ ev' = ev) ∨ fd' ≠ fd ∧ evlp.epfd.set.events fd' = some ev' := by
  rw [(epollCtl_events (set_of_epollCtl hctl)).1] at hev
  rcases eq_or_ne fd' fd with rfl | hne
  · rw [Function.update_self] at hev
    split at hev
    · cases hev
    · exact Or.inl ⟨rfl, ‹_›, (Option.some.inj hev).symm⟩
  · rw [Function.update_of_ne hne] at hev
    exact Or.inr ⟨hne, hev⟩

/-- The mask is in the slot, and the kernel was not asked for it. -/
theorem EventLoop.Covers.refused (h : evlp.Covers) {mask' : EventMask}
    (hmask : ∀ d, (evlp.regEvents fd).mask.has d = true → mask'.has d = true) :
    (evlp.setEvent fd { evlp.regEvents fd with mask := mask' }).Covers := by
  refine ⟨fun fd' ev hev d hd => ?_, fun fd' ev hev => ?_, h.pos⟩
  · rcases eq_or_ne fd' fd with rfl | hne
    · simpa only [setEvent, Function.update_self] using hmask d (h.mask fd' ev hev d hd)
    · simpa only [setEvent, Function.update_of_ne hne] using h.mask fd' ev hev d hd
  · rcases eq_or_ne fd' fd with rfl | hne
    · simpa only [setEvent, Function.update_self] using h.context fd' ev hev
    · simpa only [setEvent, Function.update_of_ne hne] using h.context fd' ev hev

/-- The kernel has accepted the mask of a slot. -/
theorem EventLoop.Covers.accepted (h : evlp.Covers) (hpos : 0 ≤ fd)
    (hctl : epollCtl evlp.epfd op fd (epollEvents eb.mask) = some k) (hepfd : evlp'.epfd = k)
    (hreg : evlp'.regEvents = Function.update evlp.regEvents fd eb)
    (hcontext : op ≠ .del → eb.clientData.isSome = true) : evlp'.Covers := by
  subst hepfd
  refine ⟨fun fd' ev hev d hd => ?_, fun fd' ev hev => ?_, fun fd' ev hev => ?_⟩
  · rcases events_of_epollCtl hctl hev with ⟨rfl, -, rfl⟩ | ⟨hne, hold⟩
    · rw [hreg, Function.update_self]
      exact (epollEvents_has eb.mask d).symm.trans hd
    · rw [hreg, Function.update_of_ne hne]
      exact h.mask fd' ev hold d hd
  · rcases events_of_epollCtl hctl hev with ⟨rfl, hop, -⟩ | ⟨hne, hold⟩
    · rw [hreg, Function.update_self]
      exact hcontext hop
    · rw [hreg, Function.update_of_ne hne]
      exact h.context fd' ev hold
  · rcases events_of_epollCtl hctl hev with ⟨rfl, -, -⟩ | ⟨-, hold⟩
    · exact hpos
    · exact h.pos fd' ev hold

/-- The kernel has accepted the mask of a slot, and `maxfd` is not below a descriptor with a
mask. -/
theorem EventLoop.Below.accepted (h : evlp.Below)
    (hctl : epollCtl evlp.epfd op fd (epollEvents eb.mask) = some k) (hepfd : evlp'.epfd = k)
    (hreg : evlp'.regEvents = Function.update evlp.regEvents fd eb)
    (hself : op ≠ .del → eb.mask ≠ eventNone ∧ fd ≤ evlp'.maxfd)
    (hother : ∀ fd' ev, fd' ≠ fd → evlp.epfd.set.events fd' = some ev → fd' ≤ evlp'.maxfd) :
    evlp'.Below := by
  subst hepfd
  intro fd' ev hev
  rcases events_of_epollCtl hctl hev with ⟨rfl, hop, -⟩ | ⟨hne, hold⟩
  · rw [hreg, Function.update_self]
    exact hself hop
  · rw [hreg, Function.update_of_ne hne]
    exact ⟨(h fd' ev hold).1, hother fd' ev hne hold⟩

theorem EventLoop.Covers.enable (h : evlp.Covers) {callback : κ} {context : γ}
    (hr : eventEnableRw evlp fd callback context mask = .ok r) :
    r.2.Covers ∧ (mask ≠ eventNone → evlp.Below → r.2.Below) := by
  have hpos : 0 ≤ fd := (eventEnableRw_ok hr).1
  rcases le_or_gt evlp.size fd with hge | hsize
  · obtain rfl := Except.ok.inj (((if_neg hpos.not_gt).trans (if_pos hge)).symm.trans hr)
    exact ⟨h, fun _ hbelow => hbelow⟩
  cases hctl : enableCtl evlp fd mask with
  | none =>
    obtain rfl := Except.ok.inj
      ((eventEnableRw_of_none hpos hsize hctl callback context).symm.trans hr)
    refine ⟨h.refused fun d hd => by simp [hd], fun hmask hbelow fd' ev hev => ?_⟩
    obtain ⟨hmask', hmax⟩ := hbelow fd' ev hev
    refine ⟨?_, hmax⟩
    rcases eq_or_ne fd' fd with rfl | hne
    · simpa only [setEvent, Function.update_self] using or_ne_eventNone hmask
    · simpa only [setEvent, Function.update_of_ne hne] using hmask'
  | some k =>
    obtain rfl := Except.ok.inj
      ((eventEnableRw_of_some hpos hsize hctl callback context).symm.trans hr)
    refine ⟨h.accepted hpos hctl rfl rfl fun _ => rfl, fun hmask hbelow => ?_⟩
    exact hbelow.accepted hctl rfl rfl (fun _ => ⟨or_ne_eventNone hmask, le_max_left _ _⟩)
      fun fd' ev _ hev => (hbelow fd' ev hev).2.trans (le_max_right _ _)

theorem EventLoop.Covers.disable (h : evlp.Covers)
    (hr : eventDisableRw evlp fd mask = .ok r) :
    r.2.Covers ∧ (evlp.Below → r.2.Below) := by
  have hcall : RegisterCall.exec evlp (.disable fd mask) = .ok r := hr
  have hpos : 0 ≤ fd := RegisterCall.pos_of_exec hcall
  rcases le_or_gt evlp.size fd with hge | hsize
  · obtain rfl := Except.ok.inj (((if_neg hpos.not_gt).trans (if_pos hge)).symm.trans hr)
    exact ⟨h, fun hbelow => hbelow⟩
  by_cases hmask : (evlp.regEvents fd).mask = eventNone
  · obtain rfl := Except.ok.inj ((eventDisableRw_of_empty hpos hsize hmask).symm.trans hr)
    exact ⟨h, fun hbelow => hbelow⟩
  cases hctl : disableCtl evlp fd mask with
  | none =>
    obtain rfl := Except.ok.inj ((eventDisableRw_of_none hpos hsize hmask hctl).symm.trans hr)
    exact ⟨h, fun hbelow => hbelow⟩
  | some k =>
    obtain rfl := Except.ok.inj ((eventDisableRw_of_some hpos hsize hmask hctl).symm.trans hr)
    -- the set has a descriptor that a `MOD` or a `DEL` is accepted for
    have hop : (if (evlp.regEvents fd).mask.without mask ≠ eventNone then EpollOp.mod
        else .del) ≠ .add := by
      split
      · decide
      · decide
    obtain ⟨ev', hev'⟩ := Option.isSome_iff_exists.1
      ((epollCtl_events (set_of_epollCtl hctl)).2 hop)
    refine ⟨h.accepted hpos hctl rfl rfl fun _ => h.context fd ev' hev', fun hbelow => ?_⟩
    refine hbelow.accepted hctl rfl rfl (fun hdel => ?_) fun fd' ev hne hev => ?_
    · have hrest : (evlp.regEvents fd).mask.without mask ≠ eventNone :=
        fun hnone => hdel (if_neg (not_not.2 hnone))
      refine ⟨hrest, ?_⟩
      simp only [if_neg (show ¬(fd = evlp.maxfd ∧ _) from fun hlast => hrest hlast.2)]
      exact (hbelow fd ev' hev').2
    · obtain ⟨hmask', hmax⟩ := hbelow fd' ev hev
      simp only [setEvent]
      split
      · rename_i hlast
        refine le_lastRegistered (h.pos fd' ev hev) ?_ (by omega)
        rwa [Function.update_of_ne hne]
      · exact hmax

theorem EventLoop.Covers.call (h : evlp.Covers) {call : RegisterCall κ γ}
    (hr : call.exec evlp = .ok r) :
    r.2.Covers ∧ (call.mask ≠ eventNone → evlp.Below → r.2.Below) := by
  cases call with
  | enable fd callback context mask => exact h.enable hr
  | disable fd mask =>
    obtain ⟨hcovers, hbelow⟩ := h.disable hr
    exact ⟨hcovers, fun _ => hbelow⟩

end

/-- After any calls, the set has descriptors with a slot. After calls with a mask, none of them is
above `maxfd`. -/
theorem EventLoop.covers_of_run {evlp : EventLoop Refusing κ γ}
    {tr : List (EventLoop Refusing κ γ × (RegisterCall κ γ × Bool) × EventLoop Refusing κ γ)}
    (h : (refusingSystem κ γ).Run tr evlp) :
    evlp.Covers ∧ ((∀ m ∈ tr, m.2.1.1.mask ≠ eventNone) → evlp.Below) := by
  obtain ⟨_, ⟨size, rfl⟩, hp⟩ := h
  induction hp with
  | nil =>
    have hempty : ∀ fd ev, epollCreate.events fd ≠ some ev := fun _ _ hev => by cases hev
    exact ⟨⟨fun fd ev hev => absurd hev (hempty fd ev), fun fd ev hev => absurd hev (hempty fd ev),
      fun fd ev hev => absurd hev (hempty fd ev)⟩, fun _ fd ev hev => absurd hev (hempty fd ev)⟩
  | @snoc tr evlp evlp' a _ hst ih =>
    obtain ⟨hcovers, hbelow⟩ := ih
    obtain ⟨r, hr⟩ := hst
    have hsame : (evlp.refusing a.2).Covers := ⟨hcovers.mask, hcovers.context, hcovers.pos⟩
    obtain ⟨hcovers', hstep⟩ := hsame.call hr
    refine ⟨hcovers', fun hall => ?_⟩
    have hlast := hall _ (List.mem_append_right _ (List.mem_singleton_self _))
    exact hstep hlast (hbelow fun m hm => hall m (List.mem_append_left _ hm))

/-! ## The batch -/

/-- After any calls, each of which the kernel may have refused, the dispatch of a batch serves every
direction that is ready if and only if no descriptor of it is above `maxfd` or ready for reading and
writing at once, and each ready direction has a callback in its slot. No descriptor is above `maxfd`
if no call had an empty mask. -/
theorem dispatch_serves_iff {evlp : EventLoop Refusing κ γ}
    {tr : List (EventLoop Refusing κ γ × (RegisterCall κ γ × Bool) × EventLoop Refusing κ γ)}
    (h : (refusingSystem κ γ).Run tr evlp) {batch : List EpollEvent}
    (hbatch : Reported evlp.epfd.set batch) :
    (ServesAll evlp batch ↔ ∀ e ∈ batch, e.fd ≤ evlp.maxfd ∧
      ¬(e.events.has .read = true ∧ e.events.has .write = true) ∧
      ∀ d, e.events.has d = true → ((evlp.regEvents e.fd).callback d).isSome = true) ∧
    ((∀ m ∈ tr, m.2.1.1.mask ≠ eventNone) → ∀ e ∈ batch, e.fd ≤ evlp.maxfd) := by
  obtain ⟨hcovers, hbelow⟩ := EventLoop.covers_of_run h
  have hpos : ∀ e ∈ batch, 0 ≤ e.fd := fun e he =>
    (hbatch.2 e he).elim fun ev hev => hcovers.pos e.fd ev hev.1
  have hmask : ∀ e ∈ batch, ∀ d, e.events.has d = true →
      (evlp.regEvents e.fd).mask.has d = true := fun e he d hd =>
    (hbatch.2 e he).elim fun ev hev => hcovers.mask e.fd ev hev.1 d (hev.2 d hd)
  refine ⟨⟨fun hserves e he => ?_, fun hall => ?_⟩, fun hmasks e he => ?_⟩
  · have hmax : ∀ e ∈ batch, e.fd ≤ evlp.maxfd := range_of_eventDispatch hserves.choose_spec.1
    have hrange : ∀ e ∈ batch, 0 ≤ e.fd ∧ e.fd ≤ evlp.maxfd := fun e he => ⟨hpos e he, hmax e he⟩
    refine ⟨hmax e he, fun hboth => ?_, fun d hd => ?_⟩
    · exact not_servesAll hrange hbatch.1 he hboth.1 hboth.2 (hmask e he .write hboth.2) hserves
    · obtain ⟨calls, -, hserved⟩ := hserves
      have hone := hserved.once e he d hd (hmask e he d hd)
      obtain ⟨c, hc, hfd⟩ := List.countP_pos_iff.1 (hone.symm ▸ Nat.one_pos)
      obtain ⟨hfd, hdir⟩ := of_decide_eq_true hfd
      obtain ⟨hcb, hsome, -⟩ := hserved.callback c hc
      rwa [hcb, hfd, hdir] at hsome
  · have hrange : ∀ e ∈ batch, 0 ≤ e.fd ∧ e.fd ≤ evlp.maxfd := fun e he =>
      ⟨hpos e he, (hall e he).1⟩
    refine ⟨_, eventDispatch_eq hrange, ⟨fun e he d hd _ => ?_, fun c hc => ?_,
      pairwise_dispatchCall hbatch.1⟩⟩
    · rw [countP_dispatchCall hbatch.1 he hd, if_pos (direction_eq hd (hall e he).2.1)]
    · obtain ⟨e, he, hcall⟩ := List.mem_filterMap.1 hc
      obtain ⟨hdir, rfl⟩ := dispatchCall_eq_some_iff.1 hcall
      obtain ⟨ev, hev, -⟩ := hbatch.2 e he
      exact ⟨rfl, (hall e he).2.2 _ hdir, rfl, hcovers.context e.fd ev hev⟩
  · obtain ⟨ev, hev, -⟩ := hbatch.2 e he
    exact (hbelow hmasks e.fd ev hev).2

theorem reach_of_refusingCalls {as : List (RegisterCall κ γ × Bool)}
    {evlp : EventLoop Refusing κ γ}
    (h : as.foldlM refusingCall (eventInit κ γ 1024 ⟨epollCreate, false⟩) = some evlp) :
    ∃ tr, (refusingSystem κ γ).Run tr evlp := by
  obtain ⟨tr, hp, -⟩ := LTS.Path.of_foldlM (S := refusingSystem κ γ)
    (fun _ _ _ => step_of_refusingCall) h
  exact ⟨tr, _, ⟨1024, rfl⟩, hp⟩

/-- One descriptor is ready for reading. Another was refused for reading and registered for writing
after it was registered for writing, and is ready for writing. -/
theorem dispatch_serves_two : ∃ evlp : EventLoop Refusing ℕ ℕ, (refusingSystem ℕ ℕ).Reach evlp ∧
    (∃ ev, evlp.epfd.set.events 6 = some ev ∧ ev.has .read = true) ∧
    ServesAll evlp [⟨6, ⟨false, true⟩⟩, ⟨5, ⟨true, false⟩⟩] := by
  have hrun : ([(.enable 5 0 0 eventRead, false), (.enable 6 1 1 eventWrite, false),
      (.enable 6 2 2 eventRead, true), (.enable 6 1 1 eventWrite, false)].foldlM refusingCall
      (eventInit ℕ ℕ 1024 ⟨epollCreate, false⟩)).any (fun evlp =>
        evlp.epfd.set.events 5 = some ⟨true, false⟩ ∧ evlp.epfd.set.events 6 = some ⟨true, true⟩ ∧
        evlp.maxfd = 6 ∧ (evlp.regEvents 5).readCb = some 0 ∧
        (evlp.regEvents 6).writeCb = some 1) = true := by
    decide +kernel
  obtain ⟨evlp, hevlp, hobs⟩ := (Option.any_eq_true _ _).1 hrun
  obtain ⟨hfive, hsix, hmaxfd, hread, hwrite⟩ := of_decide_eq_true hobs
  obtain ⟨tr, htr⟩ := reach_of_refusingCalls hevlp
  have hbatch : Reported evlp.epfd.set [⟨6, ⟨false, true⟩⟩, ⟨5, ⟨true, false⟩⟩] := by
    refine ⟨by decide, fun e he => ?_⟩
    rcases List.mem_pair.1 he with rfl | rfl
    · exact ⟨_, hsix, fun d => by cases d <;> decide⟩
    · exact ⟨_, hfive, fun d => by cases d <;> decide⟩
  refine ⟨evlp, ⟨tr, htr⟩, ⟨_, hsix, rfl⟩, (dispatch_serves_iff htr hbatch).1.2 fun e he => ?_⟩
  rw [hmaxfd]
  rcases List.mem_pair.1 he with rfl | rfl
  · refine ⟨by decide, by decide, fun d hd => ?_⟩
    cases d with
    | read => cases hd
    | write => simp [EventBase.callback, hwrite]
  · refine ⟨by decide, by decide, fun d hd => ?_⟩
    cases d with
    | read => simp [EventBase.callback, hread]
    | write => cases hd

/-- Descriptor 5 is registered for reading and writing and is ready for both : the callback for
reading is called, and the one for writing is not. Descriptor 6 is registered for writing, refused
for reading, and registered for writing again : it is ready for reading, and a callback is called
that was never registered. -/
theorem not_dispatch_serves : (∃ evlp : EventLoop Refusing ℕ ℕ, (refusingSystem ℕ ℕ).Reach evlp ∧
    Reported evlp.epfd.set [⟨5, ⟨true, true⟩⟩] ∧
    eventDispatch evlp [⟨5, ⟨true, true⟩⟩] = .ok [⟨5, .read, some 0, some 1⟩] ∧
    ¬ServesAll evlp [⟨5, ⟨true, true⟩⟩]) ∧
    ∃ evlp : EventLoop Refusing ℕ ℕ, (refusingSystem ℕ ℕ).Reach evlp ∧
      Reported evlp.epfd.set [⟨6, ⟨true, false⟩⟩] ∧
      eventDispatch evlp [⟨6, ⟨true, false⟩⟩] = .ok [⟨6, .read, none, some 1⟩] ∧
      ¬ServesAll evlp [⟨6, ⟨true, false⟩⟩] := by
  constructor
  · have hrun : ([(.enable 5 0 0 eventRead, false), (.enable 5 1 1 eventWrite, false)].foldlM
        refusingCall (eventInit ℕ ℕ 1024 ⟨epollCreate, false⟩)).any (fun evlp =>
          evlp.epfd.set.events 5 = some ⟨true, true⟩ ∧ evlp.maxfd = 5 ∧
          (evlp.regEvents 5).mask.has .write = true ∧ (evlp.regEvents 5).readCb = some 0 ∧
          (evlp.regEvents 5).clientData = some 1) = true := by
      decide +kernel
    obtain ⟨evlp, hevlp, hobs⟩ := (Option.any_eq_true _ _).1 hrun
    obtain ⟨hfive, hmaxfd, hmask, hcb, hctx⟩ := of_decide_eq_true hobs
    have hrange : ∀ e ∈ [(⟨5, ⟨true, true⟩⟩ : EpollEvent)], 0 ≤ e.fd ∧ e.fd ≤ evlp.maxfd := by
      rw [hmaxfd]
      decide
    refine ⟨evlp, reach_of_refusingCalls hevlp, ⟨by decide, fun e he => ?_⟩, ?_,
      not_servesAll hrange (by decide) (List.mem_singleton_self _) rfl rfl hmask⟩
    · obtain rfl := List.mem_singleton.1 he
      exact ⟨_, hfive, fun d => by cases d <;> decide⟩
    · rw [eventDispatch_eq hrange]
      simp only [List.filterMap_cons, List.filterMap_nil, dispatchCall, EpollEvent.direction,
        EventBase.callback, if_true, EpollEvents.has, hcb, hctx]
  · have hrun : ([(.enable 6 1 1 eventWrite, false), (.enable 6 2 2 eventRead, true),
        (.enable 6 1 1 eventWrite, false)].foldlM refusingCall
        (eventInit ℕ ℕ 1024 ⟨epollCreate, false⟩)).any (fun evlp =>
          evlp.epfd.set.events 6 = some ⟨true, true⟩ ∧ evlp.maxfd = 6 ∧
          (evlp.regEvents 6).readCb = none ∧ (evlp.regEvents 6).clientData = some 1) = true := by
      decide +kernel
    obtain ⟨evlp, hevlp, hobs⟩ := (Option.any_eq_true _ _).1 hrun
    obtain ⟨hsix, hmaxfd, hcb, hctx⟩ := of_decide_eq_true hobs
    have hrange : ∀ e ∈ [(⟨6, ⟨true, false⟩⟩ : EpollEvent)], 0 ≤ e.fd ∧ e.fd ≤ evlp.maxfd := by
      rw [hmaxfd]
      decide
    have hcalls : eventDispatch evlp [⟨6, ⟨true, false⟩⟩] = .ok [⟨6, .read, none, some 1⟩] := by
      rw [eventDispatch_eq hrange]
      simp only [List.filterMap_cons, List.filterMap_nil, dispatchCall, EpollEvent.direction,
        EventBase.callback, if_true, EpollEvents.has, hcb, hctx]
    refine ⟨evlp, reach_of_refusingCalls hevlp, ⟨by decide, fun e he => ?_⟩, hcalls, ?_⟩
    · obtain rfl := List.mem_singleton.1 he
      exact ⟨_, hsix, fun d => by cases d <;> decide⟩
    · rintro ⟨calls, hok, hserved⟩
      obtain rfl := Except.ok.inj (hcalls.symm.trans hok)
      cases (hserved.callback _ (List.mem_singleton_self _)).2.1

end Nowra
