import Nowra.Reload

/-!
# The moves of the process manager

A call of the master other than a start is a sequence of a few kinds of writes (`World.Move`) :
to the books, to the throttle flag of a service together with its timer, to the listen flag of a
service together with its interest, and to the clock. `masterExec_moves` says so of every call, and
`masterDeleteChildren_moves` of `master_delete_children`. What every move keeps, every call keeps
(`World.Moves.invariant`).
-/

namespace Nowra

open World

/-- One write of the process manager, with a reading of the clock in `clock`. Only a spawn clears
`MASTER_FLAG_CONDWAKE`. -/
inductive World.Move (clock : ℤ → Prop) (spawns : Prop) : World → World → Prop
  /-- The counts of the services, the records and the table. -/
  | books {w w' : World}
      (heq : w' = { w with
        serv := w'.serv
        proc := w'.proc
        masterChildTable := w'.masterChildTable
        nextProc := w'.nextProc })
      (hserv : ∀ t, ∃ avail total, w'.serv t = { w.serv t with
        availProc := avail
        totalProc := total }) : Move clock spawns w w'
  | woken {w : World} (s : ServPtr) (hspawns : spawns) :
      Move clock spawns w (w.updServ s fun serv => { serv with
        flags := { serv.flags with condwake := false } })
  /-- `master_avail_listen` -/
  | rearm {w w' : World} {s : ServPtr} (h : w.Rearmed w' s) : Move clock spawns w w'
  | throttle {w : World} {s : ServPtr} {now : ℤ} {r : ℤ × TimerQueue TimerCallback ServPtr}
      (hs : s < w.nextServ) (hnow : clock now) (hthr : (w.serv s).flags.throttle = false)
      (hr : eventRequestTimer w.timers .masterUnthrottleWrapper s (w.serv s).throttleDelay now =
        .ok r) :
      Move clock spawns w { w.updServ s fun serv => { serv with
        flags := { serv.flags with throttle := true } } with timers := r.2 }
  | release {w : World} {s : ServPtr} {now : ℤ} (hnow : clock now)
      (hthr : (w.serv s).flags.throttle = true) : Move clock spawns w (w.released s now)
  /-- A timer that is due has its service released. -/
  | expire {w : World} {timer : EventTimer TimerCallback ServPtr}
      {timers : TimerQueue TimerCallback ServPtr} {now : ℤ}
      (hfirst : eventFirstTimer w.timers = some (timer, timers)) (hnow : clock now)
      (hcb : timer.callback = .masterUnthrottleWrapper)
      (hthr : (w.serv timer.context).flags.throttle = true) :
      Move clock spawns w ({ w with timers := timers }.released timer.context now)
  /-- A timer that is due has no service to release. -/
  | drop {w : World} {timer : EventTimer TimerCallback ServPtr}
      {timers : TimerQueue TimerCallback ServPtr}
      (hfirst : eventFirstTimer w.timers = some (timer, timers))
      (hcb : timer.callback = .masterUnthrottleWrapper →
        (w.serv timer.context).flags.throttle = false) :
      Move clock spawns w { w with timers := timers }
  | clocked {w : World} {now : ℤ} (hnow : clock now) : Move clock spawns w (w.clocked now)
  /-- A connection event of a throttled service. -/
  | deafen {w w' : World} {s : ServPtr} (heq : w' = { w with masterEl := w'.masterEl })
      (hset : w.masterEl.SlotSet w'.masterEl (w.serv s).listenFd
        { w.masterEl.regEvents (w.serv s).listenFd with
          mask := (w.masterEl.regEvents (w.serv s).listenFd).mask.without eventRead }) :
      Move clock spawns w w'

/-- Moves one after another. -/
abbrev World.Moves (clock : ℤ → Prop) (spawns : Prop) : World → World → Prop :=
  Relation.ReflTransGen (World.Move clock spawns)

section

variable {clock : ℤ → Prop} {spawns : Prop} {w w' : World}

/-- What every move keeps, moves keep. -/
theorem World.Moves.invariant {P : World → Prop} (h : World.Moves clock spawns w w')
    (hP : ∀ v v', World.Move clock spawns v v' → P v → P v') (hw : P w) : P w' := by
  induction h with
  | refl => exact hw
  | tail _ hmove ih => exact hP _ _ hmove ih

theorem World.Moves.of_books (heq : w' = { w with
      serv := w'.serv
      proc := w'.proc
      masterChildTable := w'.masterChildTable
      nextProc := w'.nextProc })
    (hserv : ∀ t, ∃ avail total, w'.serv t = { w.serv t with
      availProc := avail
      totalProc := total }) : World.Moves clock spawns w w' :=
  .single (.books heq hserv)

/-- The counts of one service, the records and the table. -/
theorem World.Moves.of_count {s : ServPtr} {avail total : ℤ} (heq : w' = { w with
      serv := Function.update w.serv s { w.serv s with availProc := avail, totalProc := total }
      proc := w'.proc
      masterChildTable := w'.masterChildTable
      nextProc := w'.nextProc }) : World.Moves clock spawns w w' := by
  have hserv : w'.serv = Function.update w.serv s
      { w.serv s with availProc := avail, totalProc := total } := (congrArg World.serv heq :)
  refine .of_books (by rw [hserv]; exact heq) fun t => ?_
  rcases eq_or_ne t s with rfl | ht
  · exact ⟨avail, total, by rw [hserv, Function.update_self]⟩
  · exact ⟨(w.serv t).availProc, (w.serv t).totalProc, by rw [hserv, Function.update_of_ne ht]⟩

/-! ## The calls -/

theorem masterAvailMore_moves {s : ServPtr} {p : ProcPtr} (h : masterAvailMore w s p = .ok w') :
    World.Moves clock spawns w w' := by
  have hmore : World.Moves clock spawns w (w.more s p) := .of_count rfl
  exact hmore.tail (.rearm (masterAvailMore_ok h).2)

theorem masterAvailLess_moves {s : ServPtr} {p : ProcPtr} (h : masterAvailLess w s p = .ok w') :
    World.Moves clock spawns w w' := by
  have hless : World.Moves clock spawns w (w.less s p) := .of_count rfl
  exact hless.tail (.rearm (masterAvailLess_ok h).2)

theorem masterThrottle_moves {s : ServPtr} {now : ℤ} (h : masterThrottle w s now = .ok w')
    (hs : s < w.nextServ) (hnow : clock now) : World.Moves clock spawns w w' := by
  unfold masterThrottle at h
  split at h
  · obtain rfl := Except.ok.inj h
    exact .refl
  · rename_i hthr
    obtain ⟨r, hr, h⟩ := bind_ok_iff.1 h
    obtain rfl := Except.ok.inj h
    rw [updServ_self] at hr
    exact .single (.throttle hs hnow (by simpa using hthr) hr)

theorem masterUnthrottle_moves {s : ServPtr} {now : ℤ} (h : masterUnthrottle w s now = .ok w')
    (hnow : clock now) : World.Moves clock spawns w w' := by
  rcases masterUnthrottle_ok h with ⟨hthr, hre⟩ | ⟨-, rfl⟩
  · exact (Relation.ReflTransGen.single (.release hnow hthr)).tail (.rearm hre)
  · exact .refl

theorem masterSpawn_moves {s : ServPtr} {fork : Option MasterPid} {now : ℤ}
    (h : masterSpawn w s fork now = .ok w') (hs : s < w.nextServ) (hnow : clock now)
    (hspawns : spawns) : World.Moves clock spawns w w' := by
  obtain ⟨-, ⟨-, hthr⟩ | ⟨pid, v, -, hre, rfl⟩⟩ := masterSpawn_ok h
  · have htabled : World.Moves clock spawns w w.tabled :=
      .of_books rfl fun t => ⟨(w.serv t).availProc, (w.serv t).totalProc, rfl⟩
    exact htabled.trans (masterThrottle_moves hthr hs hnow)
  · have hforked : World.Moves clock spawns w (w.forked s pid) := .of_count rfl
    have hmore : World.Moves clock spawns (w.forked s pid)
        ((w.forked s pid).more s w.nextProc) := .of_count rfl
    exact ((hforked.trans hmore).tail (.rearm hre)).tail (.woken s hspawns)

theorem masterDeleteChild_moves {p : ProcPtr} (h : masterDeleteChild w p = .ok w') :
    World.Moves clock spawns w w' := by
  obtain ⟨v, -, heq, hcases⟩ := masterDeleteChild_ok h
  have hdrop : World.Moves clock spawns w (w.dropped (w.proc p).serv) := .of_count rfl
  have hv : World.Moves clock spawns w v := by
    rcases hcases with ⟨-, hre⟩ | ⟨-, hre⟩ | ⟨-, rfl, -⟩
    · have hless : World.Moves clock spawns (w.dropped (w.proc p).serv)
          ((w.dropped (w.proc p).serv).less (w.proc p).serv p) := .of_count rfl
      exact (hdrop.trans hless).tail (.rearm hre)
    · exact hdrop.tail (.rearm hre)
    · exact hdrop
  refine hv.tail (.books ?_ fun t => ⟨(v.serv t).availProc, (v.serv t).totalProc, ?_⟩)
  · rw [heq]
  · rw [heq]

/-- A child that failed at its startup throttles its service. -/
theorem masterReap_moves {dead : Waited} {kids : Finset MasterPid}
    (h : masterReap w dead = .ok w') (hacc : w.Account kids) (hnow : clock dead.now) :
    World.Moves clock spawns w w' := by
  obtain ⟨p, v, hfind, hv, hdel⟩ := masterReap_ok h
  have hfresh := (hacc.fresh p (hacc.find.1 hfind).1).2
  have hthrottled : World.Moves clock spawns w v := by
    rcases hv with hthr | rfl
    · exact masterThrottle_moves hthr hfresh hnow
    · exact .refl
  exact hthrottled.trans (masterDeleteChild_moves hdel)

end

theorem masterReapChild_moves {clock : ℤ → Prop} {spawns : Prop} {dead : List Waited} :
    ∀ {w w' : World} {kids : Finset MasterPid}, masterReapChild w dead = .ok w' →
      w.Account kids → WaitOk kids dead → (∀ d ∈ dead, clock d.now) →
        World.Moves clock spawns w w' := by
  induction dead with
  | nil =>
    intro w w' kids h _ _ _
    obtain rfl := Except.ok.inj h
    exact .refl
  | cons d dead ih =>
    intro w w' kids h hacc hwait hnow
    obtain ⟨v, hv, h⟩ := bind_ok_iff.1 h
    obtain ⟨hmem, hwait'⟩ := hwait.cons
    have hacc' := ((masterReap_books hacc hmem).ok _ hv).1
    exact (masterReap_moves hv hacc (hnow d (by simp))).trans
      (ih h hacc' hwait' fun d' hd' => hnow d' (by simp [hd']))

section

variable {clock : ℤ → Prop} {spawns : Prop} {w w' : World}

theorem masterStatusEvent_moves {event : ℤ} {s : ServPtr} {read : StatusRead}
    (h : masterStatusEvent w event s read = .ok w') : World.Moves clock spawns w w' := by
  obtain rfl | ⟨stat, p, -, -, -, -, ⟨-, hmore⟩ | ⟨-, hless⟩⟩ := masterStatusEvent_ok h
  · exact .refl
  · have hused : World.Moves clock spawns w (w.updProc p fun proc =>
        { proc with useCount := proc.useCount + 1 }) :=
      .of_books rfl fun t => ⟨(w.serv t).availProc, (w.serv t).totalProc, rfl⟩
    exact hused.trans (masterAvailMore_moves hmore)
  · exact masterAvailLess_moves hless

theorem masterAvailEvent_moves {event : ℤ} {s : ServPtr} {fork : Option MasterPid} {now : ℤ}
    (h : masterAvailEvent w event s fork now = .ok w') (hs : s < w.nextServ) (hnow : clock now)
    (hspawns : spawns) : World.Moves clock spawns w w' := by
  obtain ⟨-, rfl⟩ | ⟨-, -, heq, hset⟩ | ⟨-, -, hspawn⟩ := masterAvailEvent_ok h
  · exact .refl
  · exact .single (.deafen heq hset)
  · exact masterSpawn_moves hspawn hs hnow hspawns

/-- The timer leaves the queue before its callback clears the flag. -/
theorem masterTimer_moves {now : ℤ} (h : masterTimer w now = .ok w') (hnow : clock now) :
    World.Moves clock spawns w w' := by
  unfold masterTimer at h
  split at h
  · obtain rfl := Except.ok.inj h
    exact .refl
  rename_i timer timers hfirst
  split at h
  · rename_i hcb
    rcases masterUnthrottle_ok h with ⟨hthr, hre⟩ | ⟨hthr, rfl⟩
    · exact (Relation.ReflTransGen.single (.expire hfirst hnow hcb hthr)).tail (.rearm hre)
    · exact .single (.drop hfirst fun _ => hthr)
  · rename_i id hcb
    obtain rfl := Except.ok.inj h
    exact .single (.drop hfirst fun he => by simp [hcb] at he)

/-- If no call of `waitpid` was to spare, the children are reaped under the throttle. -/
theorem masterDeleteChildren_ok {s : ServPtr} {dead : List (List Waited)} {now : ℤ}
    (h : masterDeleteChildren w s dead now = .ok (some w'))
    (hall : ∀ n < dead.length, masterDeleteChildren w s (dead.take n) now = .ok none) :
    ∃ t u, masterThrottle w s now = .ok t ∧ masterReapChild t dead.flatten = .ok u ∧
      masterUnthrottle u s now = .ok w' := by
  unfold masterDeleteChildren at h hall
  obtain ⟨t, ht, h⟩ := bind_ok_iff.1 h
  obtain ⟨o, hwhile, h⟩ := bind_ok_iff.1 h
  cases o with
  | none => cases h
  | some u =>
    obtain ⟨r, hr, h⟩ := bind_ok_iff.1 h
    obtain rfl := Option.some.inj (Except.ok.inj h)
    refine ⟨t, u, ht, masterReapWhile_ok hwhile fun n hn => ?_, hr⟩
    obtain ⟨t', ht', hnone⟩ := bind_ok_iff.1 (hall n hn)
    obtain rfl := Except.ok.inj (ht.symm.trans ht')
    obtain ⟨o, hwhile', hnone⟩ := bind_ok_iff.1 hnone
    cases o with
    | none => exact hwhile'
    | some v =>
      obtain ⟨x, -, hnone⟩ := bind_ok_iff.1 hnone
      cases hnone

/-- A service is throttled while children are reaped, and released after them. -/
theorem reap_throttled_moves {v t u r : World} {kids : Finset MasterPid} {s : ServPtr}
    {dead : List Waited} {now : ℤ} (ht : masterThrottle v s now = .ok t)
    (hu : masterReapChild t dead = .ok u) (hr : masterUnthrottle u s now = .ok r)
    (hacc : v.Account kids) (hwait : WaitOk kids dead) (hs : s < v.nextServ)
    (hnow : clock now) (hdead : ∀ d ∈ dead, clock d.now) : World.Moves clock spawns v r := by
  have hacct := hacc.of_same (masterThrottle_sameBooks ht)
  exact ((masterThrottle_moves ht hs hnow).trans (masterReapChild_moves hu hacct hwait hdead)).trans
    (masterUnthrottle_moves hr hnow)

end

/-- The readings of the clock in a call. -/
def MasterOp.readings : MasterOp → List ℤ
  | .spawn _ _ now | .throttle _ now | .unthrottle _ now | .availEvent _ _ now | .timer now => [now]
  | .reapChild dead => dead.map (·.now)
  | .start _ _ | .statusEvent _ _ => []

/-- Every call but a start is a sequence of moves. -/
theorem masterExec_moves {clock : ℤ → Prop} {m : Family} {w' : World} {op : MasterOp}
    (hacc : m.world.Account m.kids) (hhead : ∀ s ∈ m.world.masterHead, s < m.world.nextServ)
    (hallow : op.Allowed m.world) (hker : op.KernelOk m) (hnow : ∀ now ∈ op.readings, clock now)
    (hexec : masterExec m.world op = .ok w') (hstart : ∀ ent fds, op ≠ .start ent fds) :
    World.Moves clock True m.world w' := by
  cases op with
  | start ent fds => exact (hstart ent fds rfl).elim
  | spawn s fork now =>
    exact masterSpawn_moves hexec (hhead s hallow) (hnow now (by simp [MasterOp.readings])) trivial
  | throttle s now =>
    exact masterThrottle_moves hexec (hhead s hallow) (hnow now (by simp [MasterOp.readings]))
  | unthrottle s now =>
    exact masterUnthrottle_moves hexec (hnow now (by simp [MasterOp.readings]))
  | availEvent s fork now =>
    exact masterAvailEvent_moves hexec (hhead s hallow.1) (hnow now (by simp [MasterOp.readings]))
      trivial
  | statusEvent s read => exact masterStatusEvent_moves hexec
  | reapChild dead =>
    exact masterReapChild_moves hexec hacc hker.2 fun d hd => hnow d.now (List.mem_map_of_mem hd)
  | timer now =>
    have hread : clock now := hnow now (by simp [MasterOp.readings])
    exact (Relation.ReflTransGen.single (.clocked hread)).trans (masterTimer_moves hexec hread)

end Nowra
