import Mathlib.Data.List.Induction
import Nowra.Iostuff

/-!
# Writing a buffer

`write_buf` is to write a buffer, however the system cuts it, or to report an error. What it has
done is the list of the calls it has made (`WriteCall`), and it is sound as long as each of them
writes from the first byte that was not accepted (`WriteBuf.Sound`).

The result of `write` is held in a `size_t`, so that a failed call goes back one byte and counts as
one more byte to write. That does no harm if the loop ends before the next call. All along a run
`write_buf` is sound if and only if each turn after a failed call ends in its wait
(`write_sound_iff`).
-/

namespace Nowra

/-! ## The loop -/

/-- A call of `write`, with its place in the buffer. -/
structure WriteCall where
  buf : ℕ
  len : ℕ
  result : IoResult
  /-- There was a timeout. -/
  timed : Bool
  deriving DecidableEq

/-- The loop. Pointers into the buffer are relative to its start, as a `size_t`. -/
structure WriteBuf where
  buf : ℕ
  len : ℕ
  timeLeft : ℤ
  expire : ℤ
  /-- The calls of `write` so far, the first one first. -/
  calls : List WriteCall
  /-- What was returned. -/
  ret : Option ℕ
  deriving DecidableEq

/-- Write `len` bytes, the clock reading `now`. -/
def writeBufInit (len : ℕ) (timeout now : ℤ) : WriteBuf where
  buf := 0
  len := len
  timeLeft := timeout
  expire := if timeout > 0 then now + timeout else 0
  calls := []
  ret := none

/-- What the system answers in a turn of the loop. -/
structure WriteAnswers where
  polls : List PollResult
  result : IoResult
  now : ℤ

namespace WriteBuf

/-- `return (-1)` -/
def fail (s : WriteBuf) : WriteBuf := { s with ret := some (sizeTOf (-1)) }

/-- The call of `write` and what follows from its result. -/
def write (s : WriteBuf) (result : IoResult) : WriteBuf :=
  let s := { s with calls := s.calls ++ [⟨s.buf, s.len, result, s.timeLeft > 0⟩] }
  let count := result.value
  -- `count` is a `size_t`, and never negative
  if count < 0 then
    if result.errno = some eagain ∧ s.timeLeft > 0 ∨ result.errno = some eintr then s
    else s.fail
  else { s with buf := sizeTOf (s.buf + count), len := sizeTOf (s.len - count) }

/-- The look at the clock at the end of a turn. -/
def checkTime (s : WriteBuf) (now : ℤ) : WriteBuf :=
  if s.len > 0 ∧ s.timeLeft > 0 then
    let s := { s with timeLeft := intOf (s.expire - now) }
    if s.timeLeft ≤ 0 then s.fail else s
  else s

/-- A turn of the loop. The process may exit. -/
def turn (s : WriteBuf) (a : WriteAnswers) : Option WriteBuf := do
  let waited ← if s.timeLeft > 0 then writeWait a.polls else pure 0
  if waited < 0 then pure s.fail
  else
    let s := s.write a.result
    if s.ret.isSome then pure s else pure (s.checkTime a.now)

end WriteBuf

/-- What the loop does. -/
inductive WriteLabel
  | turn (a : WriteAnswers)
  | done

/-- The system accepts no more than it is given. -/
def IoResult.Fits (len : ℕ) : IoResult → Prop
  | done n => n ≤ len
  | failed _ => True

instance (len : ℕ) : ∀ result : IoResult, Decidable (result.Fits len)
  | .done n => inferInstanceAs (Decidable (n ≤ len))
  | .failed _ => inferInstanceAs (Decidable True)

/-- A turn, or the end of the loop. -/
inductive WriteStep : WriteBuf → WriteLabel → WriteBuf → Prop
  | turn {s t : WriteBuf} {a : WriteAnswers} (hret : s.ret = none) (hlen : s.len > 0)
      (hresult : a.result.Fits s.len) (h : s.turn a = some t) :
      WriteStep s (.turn a) t
  | done {s : WriteBuf} (hret : s.ret = none) (hlen : s.len = 0) :
      WriteStep s .done { s with ret := some s.buf }

/-- `write_buf` of a buffer of `size` bytes, for any timeout. -/
def writeSystem (size : ℕ) : LTS WriteBuf WriteLabel where
  init s := ∃ timeout now, s = writeBufInit size timeout now
  step := WriteStep

/-! ## What it is for -/

namespace WriteCall

/-- How many bytes were accepted. -/
def count (c : WriteCall) : ℕ :=
  match c.result with
  | .done n => n
  | .failed _ => 0

/-- The call failed. -/
def Failed (c : WriteCall) : Prop := ∃ errno, c.result = .failed errno

/-- The call failed, and not just for the moment. -/
def Fatal (c : WriteCall) : Prop :=
  ∃ errno, c.result = .failed errno ∧ errno ≠ eintr ∧ ¬(errno = eagain ∧ c.timed = true)

end WriteCall

/-- How many bytes were accepted in all. -/
def accepted (calls : List WriteCall) : ℕ := (calls.map WriteCall.count).sum

/-- The bytes of a buffer that were accepted, in order. -/
def written (data : Bytes) (calls : List WriteCall) : Bytes :=
  calls.flatMap fun c => (data.drop c.buf).take c.count

/-- Every call writes from the first byte that was not accepted, to inside the buffer, and where a
call fails for good there is no other call behind it. What is returned is `-1`, or the whole buffer
was accepted. -/
structure WriteBuf.Sound (size : ℕ) (s : WriteBuf) : Prop where
  range : ∀ pre c post, s.calls = pre ++ c :: post → c.buf = accepted pre ∧ c.buf + c.len ≤ size
  returned : ∀ r, s.ret = some r → r ≠ sizeTOf (-1) →
    r = size ∧ ∀ data : Bytes, data.length = size → written data s.calls = data
  fatal : ∀ pre c post, s.calls = pre ++ c :: post → c.Fatal →
    post = [] ∧ (s.ret = none ∨ s.ret = some (sizeTOf (-1)))

/-- A turn after a failed call ends because its wait times out. -/
def WriteBuf.Conforms (s : WriteBuf) : WriteLabel → Prop
  | .turn a => (∃ c ∈ s.calls, c.Failed) → s.timeLeft > 0 ∧ writeWait a.polls = some (-1)
  | .done => True

/-! ## The calls -/

theorem accepted_snoc (calls : List WriteCall) (c : WriteCall) :
    accepted (calls ++ [c]) = accepted calls + c.count := by
  simp [accepted]

/-- A place in a list with a last element is the last one, or is in front of it. -/
theorem snoc_eq_append_cons {α : Type*} {l pre post : List α} {a b : α}
    (h : l ++ [a] = pre ++ b :: post) :
    pre = l ∧ b = a ∧ post = [] ∨ ∃ post', post = post' ++ [a] ∧ l = pre ++ b :: post' := by
  rcases List.eq_nil_or_concat' post with rfl | ⟨post', c, rfl⟩
  · obtain ⟨rfl, hb⟩ := List.append_inj' h rfl
    exact Or.inl ⟨rfl, (List.cons.inj hb).1.symm, rfl⟩
  · rw [← List.cons_append, ← List.append_assoc] at h
    obtain ⟨rfl, hc⟩ := List.append_inj' h rfl
    exact Or.inr ⟨post', by rw [(List.cons.inj hc).1], rfl⟩

/-- Calls that go on where the last one stopped write the buffer from its start. -/
theorem written_eq (data : Bytes) {calls : List WriteCall}
    (h : ∀ pre c post, calls = pre ++ c :: post → c.buf = accepted pre) :
    written data calls = data.take (accepted calls) := by
  induction calls using List.reverseRecOn with
  | nil => rfl
  | append_singleton calls c ih =>
    have hold : written data calls = data.take (accepted calls) := by
      refine ih fun pre b post heq => h pre b (post ++ [c]) ?_
      rw [heq, List.append_assoc, List.cons_append]
    have hnew : c.buf = accepted calls := h calls c [] rfl
    rw [accepted_snoc, List.take_add, ← hold, ← hnew, written, List.flatMap_append]
    simp [written]

namespace WriteBuf

variable {size : ℕ} {s t : WriteBuf}

/-- The loop after a call. Neither kind of result is told from the other. -/
def called (s : WriteBuf) (result : IoResult) (timeLeft : ℤ) (ret : Option ℕ) : WriteBuf where
  buf := sizeTOf (s.buf + result.value)
  len := sizeTOf (s.len - result.value)
  timeLeft := timeLeft
  expire := s.expire
  calls := s.calls ++ [⟨s.buf, s.len, result, s.timeLeft > 0⟩]
  ret := ret

theorem write_eq (s : WriteBuf) (result : IoResult) :
    s.write result = s.called result s.timeLeft s.ret := by
  unfold write
  simp only
  rw [if_neg (Nat.not_lt_zero _)]
  rfl

theorem checkTime_eq (s : WriteBuf) (now : ℤ) : ∃ timeLeft ret,
    (ret = s.ret ∨ ret = some (sizeTOf (-1))) ∧
      s.checkTime now = { s with timeLeft := timeLeft, ret := ret } := by
  unfold checkTime
  split
  · simp only
    split
    · exact ⟨_, _, Or.inr rfl, rfl⟩
    · exact ⟨_, _, Or.inl rfl, rfl⟩
  · exact ⟨_, _, Or.inl rfl, rfl⟩

/-- A turn ends in its wait, or makes a call. -/
theorem turn_cases {a : WriteAnswers} (hret : s.ret = none) (h : s.turn a = some t) :
    (s.timeLeft > 0 ∧ writeWait a.polls = some (-1)) ∧ t = s.fail ∨
    ¬(s.timeLeft > 0 ∧ writeWait a.polls = some (-1)) ∧ ∃ timeLeft ret,
      (ret = none ∨ ret = some (sizeTOf (-1))) ∧ t = s.called a.result timeLeft ret := by
  have hcall (h : (if (s.write a.result).ret.isSome then some (s.write a.result)
      else some ((s.write a.result).checkTime a.now)) = some t) : ∃ timeLeft ret,
        (ret = none ∨ ret = some (sizeTOf (-1))) ∧ t = s.called a.result timeLeft ret := by
    obtain ⟨timeLeft, ret, hr, heq⟩ := checkTime_eq (s.write a.result) a.now
    rw [write_eq, hret] at h hr heq
    exact ⟨timeLeft, ret, hr, (Option.some.inj h).symm.trans heq⟩
  unfold turn at h
  by_cases htime : s.timeLeft > 0
  · rw [if_pos htime] at h
    obtain ⟨waited, hw, h⟩ := Option.bind_eq_some_iff.1 h
    rcases pollWait_eq hw with rfl | rfl
    · refine Or.inr ⟨fun hout => ?_, hcall h⟩
      cases hw.symm.trans hout.2
    · exact Or.inl ⟨⟨htime, hw⟩, (Option.some.inj h).symm⟩
  · rw [if_neg htime] at h
    exact Or.inr ⟨fun hout => htime hout.1, hcall h⟩

/-! ## Runs -/

/-- No call has failed, and what is left is what was not accepted. -/
structure Good (size : ℕ) (s : WriteBuf) : Prop where
  calls : ∀ c ∈ s.calls, ¬c.Failed
  buf : s.buf = accepted s.calls
  len : s.buf + s.len = size

/-- The last call has failed, and the loop is off by one byte. -/
structure Off (size : ℕ) (s : WriteBuf) (pre : List WriteCall) (c : WriteCall) : Prop where
  calls : s.calls = pre ++ [c]
  failed : c.Failed
  before : ∀ b ∈ pre, ¬b.Failed
  le : accepted pre ≤ size
  buf : s.buf = sizeTOf (accepted pre - 1)
  len : s.len = sizeTOf (size - accepted pre + 1)
  ret : s.ret = none ∨ s.ret = some (sizeTOf (-1))

/-- The loop is sound. -/
structure Inv (size : ℕ) (s : WriteBuf) : Prop where
  sound : s.Sound size
  state : s.Good size ∨ ∃ pre c, s.Off size pre c

theorem inv_init (size : ℕ) (timeout now : ℤ) : (writeBufInit size timeout now).Inv size where
  sound := ⟨fun pre c post h => by simp [writeBufInit] at h, nofun,
    fun pre c post h => by simp [writeBufInit] at h⟩
  state := Or.inl ⟨nofun, rfl, Nat.zero_add _⟩

/-- The calls stay, and `-1` is returned. -/
theorem Sound.fail (h : s.Sound size) : s.fail.Sound size where
  range := h.range
  returned _ hr hne := absurd (Option.some.inj hr).symm hne
  fatal pre c post heq hfatal := ⟨(h.fatal pre c post heq hfatal).1, Or.inr rfl⟩

theorem Inv.fail (h : s.Inv size) : s.fail.Inv size where
  sound := h.sound.fail
  state := h.state.imp (fun hg => ⟨hg.calls, hg.buf, hg.len⟩) fun ⟨pre, c, ho⟩ =>
    ⟨pre, c, ho.calls, ho.failed, ho.before, ho.le, ho.buf, ho.len, Or.inr rfl⟩

/-- A call after calls that have not failed is sound. -/
theorem Sound.called (h : s.Sound size) (hg : s.Good size) (result : IoResult) (timeLeft : ℤ)
    {ret : Option ℕ} (hret : ret = none ∨ ret = some (sizeTOf (-1))) :
    (s.called result timeLeft ret).Sound size where
  range pre c post heq := by
    rcases snoc_eq_append_cons heq with ⟨rfl, rfl, -⟩ | ⟨post', -, hold⟩
    · exact ⟨hg.buf, Nat.le_of_eq hg.len⟩
    · exact h.range pre c post' hold
  returned _ hr hne := by
    rcases hret with rfl | rfl
    · cases hr
    · exact absurd (Option.some.inj hr).symm hne
  fatal pre c post heq hfatal := by
    rcases snoc_eq_append_cons heq with ⟨-, -, rfl⟩ | ⟨post', -, hold⟩
    · exact ⟨rfl, hret⟩
    · obtain ⟨errno, hc, -⟩ := hfatal
      have hmem : c ∈ s.calls := by
        rw [hold]
        exact List.mem_append_right _ (List.mem_cons_self ..)
      exact absurd ⟨errno, hc⟩ (hg.calls c hmem)

/-- After a call that has not failed the loop is where it should be, and after one that has it is
off by one byte. -/
theorem Inv.called (h : s.Inv size) (hg : s.Good size) (hsize : size < 2 ^ 64) {result : IoResult}
    (hresult : result.Fits s.len) (timeLeft : ℤ) {ret : Option ℕ}
    (hret : ret = none ∨ ret = some (sizeTOf (-1))) :
    (s.called result timeLeft ret).Inv size := by
  refine ⟨h.sound.called hg result timeLeft hret, ?_⟩
  have hbuf := hg.buf
  have hlen := hg.len
  cases result with
  | done n =>
    have hn : n ≤ s.len := hresult
    refine Or.inl ⟨fun c hc => ?_, ?_, ?_⟩
    · rcases List.mem_append.1 hc with hc | hc
      · exact hg.calls c hc
      · obtain rfl := List.mem_singleton.1 hc
        rintro ⟨errno, herr⟩
        cases herr
    · simp only [WriteBuf.called, accepted_snoc, WriteCall.count, IoResult.value, sizeTOf]
      omega
    · simp only [WriteBuf.called, IoResult.value, sizeTOf]
      omega
  | failed errno =>
    refine Or.inr ⟨s.calls, _, rfl, ⟨errno, rfl⟩, hg.calls, by omega, ?_, ?_, hret⟩
    · simp only [WriteBuf.called, IoResult.value, sizeTOf]
      omega
    · simp only [WriteBuf.called, IoResult.value, sizeTOf]
      omega

/-- The end of the loop : the whole buffer was accepted, or the loop is off by one byte of a buffer
whose length is `-1`. -/
theorem Inv.done (h : s.Inv size) (hsize : size < 2 ^ 64) (hlen : s.len = 0) :
    WriteBuf.Inv size { s with ret := some s.buf } := by
  rcases h.state with hg | ⟨pre, c, ho⟩
  · have hend := hg.len
    refine ⟨⟨h.sound.range, fun r hr hne => ?_, fun pre c post heq hfatal => ?_⟩,
      Or.inl ⟨hg.calls, hg.buf, hg.len⟩⟩
    · obtain rfl := Option.some.inj hr
      refine ⟨by omega, fun data hdata => ?_⟩
      have hall := written_eq data fun pre c post heq => (h.sound.range pre c post heq).1
      rw [← hg.buf, List.take_of_length_le (by omega)] at hall
      exact hall
    · obtain ⟨errno, hc, -⟩ := hfatal
      have hmem : c ∈ s.calls := by
        rw [(heq : s.calls = _)]
        exact List.mem_append_right _ (List.mem_cons_self ..)
      exact absurd ⟨errno, hc⟩ (hg.calls c hmem)
  · have hbuf := ho.buf
    have hend := ho.len
    have hle := ho.le
    have hret : s.buf = sizeTOf (-1) := by
      unfold sizeTOf at *
      omega
    refine ⟨⟨h.sound.range, fun r hr hne => ?_, fun pre c post heq hfatal => ?_⟩,
      Or.inr ⟨pre, c, ho.calls, ho.failed, ho.before, ho.le, ho.buf, ho.len,
        Or.inr (congrArg some hret)⟩⟩
    · exact absurd ((Option.some.inj hr).symm.trans hret) hne
    · exact ⟨(h.sound.fatal pre c post heq hfatal).1, Or.inr (congrArg some hret)⟩

theorem Inv.step (h : s.Inv size) (hsize : size < 2 ^ 64) {label : WriteLabel}
    (hc : s.Conforms label) (hst : WriteStep s label t) : t.Inv size := by
  cases hst with
  | turn hret hlen hresult hturn =>
    rcases turn_cases hret hturn with ⟨-, rfl⟩ | ⟨hout, timeLeft, ret, hr, rfl⟩
    · exact h.fail
    · rcases h.state with hg | ⟨pre, c, ho⟩
      · exact h.called hg hsize hresult timeLeft hr
      · refine absurd (hc ⟨c, ?_, ho.failed⟩) hout
        rw [ho.calls]
        exact List.mem_append_right _ (List.mem_singleton_self c)
  | done hret hlen => exact h.done hsize hlen

/-- The call after one that has failed does not write from where it should. -/
theorem Inv.not_sound (h : s.Inv size) {label : WriteLabel}
    (hc : ¬s.Conforms label) (hst : WriteStep s label t) : ¬t.Sound size := by
  cases hst with
  | done hret hlen => exact absurd trivial hc
  | turn hret hlen hresult hturn =>
    obtain ⟨hfailed, hwait⟩ := Classical.not_imp.1 hc
    rcases turn_cases hret hturn with ⟨hout, -⟩ | ⟨-, timeLeft, ret, -, rfl⟩
    · exact absurd hout hwait
    · intro hsound
      have hbuf := (hsound.range s.calls _ [] rfl).1
      rcases h.state with hg | ⟨pre, c, ho⟩
      · obtain ⟨c, hmem, hf⟩ := hfailed
        exact hg.calls c hmem hf
      · obtain ⟨errno, herr⟩ := ho.failed
        have hcount : c.count = 0 := by
          rw [WriteCall.count, herr]
        have hle := ho.le
        simp only [ho.buf, ho.calls, accepted_snoc, hcount, sizeTOf] at hbuf
        omega

end WriteBuf

/-- All along a run `write_buf` is sound if and only if each turn after a failed call ends because
its wait times out. -/
theorem write_sound_iff {size : ℕ} (hsize : size < 2 ^ 64) {s : WriteBuf}
    {tr : List (WriteBuf × WriteLabel × WriteBuf)} (h : (writeSystem size).Run tr s) :
    (∀ m ∈ tr, m.1.Sound size ∧ m.2.2.Sound size) ↔ ∀ m ∈ tr, m.1.Conforms m.2.1 := by
  refine h.forall_iff (I := WriteBuf.Inv size) ?_ (fun s hs => hs.sound)
    (fun s label t hs hc hst => hs.step hsize hc hst)
    fun s label t hs hc hst => hs.not_sound hc hst
  rintro _ ⟨timeout, now, rfl⟩
  exact WriteBuf.inv_init size timeout now

/-- A call is interrupted, and the wait after it times out. -/
theorem write_sound_interrupted : ∃ s tr, (writeSystem 3).Run tr s ∧ s.ret = some (2 ^ 64 - 1) ∧
    ∀ m ∈ tr, m.1.Sound 3 ∧ m.2.2.Sound 3 := by
  have h₁ : (writeSystem 3).step (writeBufInit 3 5 100)
      (.turn ⟨[.event false], .failed eintr, 102⟩)
      ⟨2 ^ 64 - 1, 4, 3, 105, [⟨0, 3, .failed eintr, true⟩], none⟩ :=
    .turn rfl (by decide) trivial (by decide)
  have h₂ : (writeSystem 3).step
      ⟨2 ^ 64 - 1, 4, 3, 105, [⟨0, 3, .failed eintr, true⟩], none⟩
      (.turn ⟨[.timedOut], .done 0, 105⟩)
      ⟨2 ^ 64 - 1, 4, 3, 105, [⟨0, 3, .failed eintr, true⟩], some (2 ^ 64 - 1)⟩ :=
    .turn rfl (by decide) (by decide) (by decide)
  have hrun := (⟨_, ⟨5, 100, rfl⟩, (LTS.Path.single h₁).snoc h₂⟩ : (writeSystem 3).Run _ _)
  refine ⟨_, _, hrun, rfl, (write_sound_iff (by decide) hrun).2 fun m hm => ?_⟩
  rcases List.mem_pair.1 hm with rfl | rfl
  · rintro ⟨c, hc, -⟩
    cases hc
  · exact fun _ => ⟨by decide, rfl⟩

/-- A step of the loop, if it is one. -/
def writeNext (s : WriteBuf) : WriteLabel → Option WriteBuf
  | .turn a => if s.ret = none ∧ s.len > 0 ∧ a.result.Fits s.len then s.turn a else none
  | .done => if s.ret = none ∧ s.len = 0 then some { s with ret := some s.buf } else none

theorem step_of_writeNext {s t : WriteBuf} {label : WriteLabel} (h : writeNext s label = some t) :
    WriteStep s label t := by
  cases label with
  | turn a =>
    simp only [writeNext] at h
    split at h
    · rename_i hturn
      exact .turn hturn.1 hturn.2.1 hturn.2.2 h
    · cases h
  | done =>
    simp only [writeNext] at h
    split at h
    · rename_i hdone
      obtain rfl := Option.some.inj h
      exact .done hdone.1 hdone.2
    · cases h

/-- A run of three bytes with five seconds for them, from second 100 on. -/
theorem run_of_writeNext {labels : List WriteLabel} {s : WriteBuf}
    (h : labels.foldlM writeNext (writeBufInit 3 5 100) = some s) :
    ∃ tr, (writeSystem 3).Run tr s ∧ tr.map (fun m => m.2.1) = labels := by
  obtain ⟨tr, hp, hmap⟩ := LTS.Path.of_foldlM (S := writeSystem 3)
    (fun _ _ _ => step_of_writeNext) h
  exact ⟨tr, ⟨_, ⟨5, 100, rfl⟩, hp⟩, hmap⟩

/-- One byte is accepted and the next call is interrupted. The first byte is written again, and
`write_buf` returns the length of the buffer. When the first call is interrupted already, the next
one begins in front of the buffer. -/
theorem not_write_sound :
    (∃ s tr, (writeSystem 3).Run tr s ∧ tr.map (fun m => m.2.1) =
      [.turn ⟨[.event false], .done 1, 101⟩, .turn ⟨[.event false], .failed eintr, 102⟩,
        .turn ⟨[.event false], .done 3, 103⟩, .done] ∧
      s.ret = some 3 ∧ written [7, 8, 9] s.calls = [7, 7, 8, 9] ∧ ¬s.Sound 3) ∧
    ∃ s tr, (writeSystem 3).Run tr s ∧ tr.map (fun m => m.2.1) =
      [.turn ⟨[.event false], .failed eintr, 101⟩, .turn ⟨[.event false], .done 0, 102⟩] ∧
      s.calls = [⟨0, 3, .failed eintr, true⟩, ⟨2 ^ 64 - 1, 4, .done 0, true⟩] ∧ ¬s.Sound 3 := by
  constructor
  · have hrun : ([.turn ⟨[.event false], .done 1, 101⟩, .turn ⟨[.event false], .failed eintr, 102⟩,
        .turn ⟨[.event false], .done 3, 103⟩, .done].foldlM writeNext
          (writeBufInit 3 5 100)).any (fun s => s.ret = some 3 ∧
            written [7, 8, 9] s.calls = [7, 7, 8, 9]) = true := by
      decide +kernel
    obtain ⟨s, hs, hobs⟩ := (Option.any_eq_true _ _).1 hrun
    obtain ⟨hret, hwritten⟩ := of_decide_eq_true hobs
    obtain ⟨tr, htr, hmap⟩ := run_of_writeNext hs
    refine ⟨s, tr, htr, hmap, hret, hwritten, fun hsound => ?_⟩
    have hall := (hsound.returned 3 hret (by decide)).2 [7, 8, 9] rfl
    rw [hwritten] at hall
    exact absurd hall (by decide)
  · have hrun : ([.turn ⟨[.event false], .failed eintr, 101⟩,
        .turn ⟨[.event false], .done 0, 102⟩].foldlM writeNext (writeBufInit 3 5 100)).any
          (fun s => s.calls =
            [⟨0, 3, .failed eintr, true⟩, ⟨2 ^ 64 - 1, 4, .done 0, true⟩]) = true := by
      decide +kernel
    obtain ⟨s, hs, hobs⟩ := (Option.any_eq_true _ _).1 hrun
    have hcalls := of_decide_eq_true hobs
    obtain ⟨tr, htr, hmap⟩ := run_of_writeNext hs
    refine ⟨s, tr, htr, hmap, hcalls, fun hsound => ?_⟩
    have hbuf := (hsound.range [⟨0, 3, .failed eintr, true⟩] _ [] hcalls).1
    exact absurd hbuf (by decide)

end Nowra
