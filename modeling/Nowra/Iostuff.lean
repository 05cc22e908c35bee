import Nowra.Mymalloc

/-!
# Reading and writing with a deadline

`iostuff.c` : `write_wait` and `read_wait` wait with `poll`, and `timed_read` and `timed_write` make
a system call after such a wait. They are to make it again when it fails for the moment
(`Retried`). But the result of the call is held in a `size_t`, so no test finds that it is negative,
and they return with the first result whatever it is. They do what they are for if and only if
that is not a failure for the moment (`timed_retries_iff`).

What the system answers is given turn by turn. When `poll` fails the process exits, and the loop
does not return.
-/

namespace Nowra

/-! ## System calls -/

/-- `EINTR` -/
def eintr : ℤ := 4

/-- `EAGAIN` -/
def eagain : ℤ := 11

/-- The result of `read` or `write`, with `errno` if it is `-1`. -/
inductive IoResult
  | done (n : ℕ)
  | failed (errno : ℤ)
  deriving DecidableEq

namespace IoResult

/-- The result as a `size_t`. -/
def value : IoResult → ℕ
  | done n => n
  | failed _ => sizeTOf (-1)

/-- `errno`, if the call sets it. -/
def errno : IoResult → Option ℤ
  | done _ => none
  | failed errno => some errno

end IoResult

/-- The result of `poll`. When there is an event, `POLLNVAL` may be set. -/
inductive PollResult
  | failed (errno : ℤ)
  | timedOut
  | event (nval : Bool)

/-- The loop around `poll`. There is no result as long as it waits, or if the process exits. -/
def pollWait : List PollResult → Option ℤ
  | [] => none
  | .failed errno :: polls => if errno ≠ eintr then none else pollWait polls
  | .timedOut :: _ => some (-1)
  | .event nval :: _ => if nval then none else some 0

/-- Wait until a descriptor is writable. -/
def writeWait (polls : List PollResult) : Option ℤ := pollWait polls

/-- Wait until a descriptor is readable. -/
def readWait (polls : List PollResult) : Option ℤ := pollWait polls

theorem pollWait_eq {polls : List PollResult} {r : ℤ} (h : pollWait polls = some r) :
    r = 0 ∨ r = -1 := by
  induction polls with
  | nil => cases h
  | cons poll polls ih =>
    cases poll with
    | failed errno =>
      rw [pollWait] at h
      split at h
      · cases h
      · exact ih h
    | timedOut => exact Or.inr (Option.some.inj h).symm
    | event nval =>
      rw [pollWait] at h
      split at h
      · cases h
      · exact Or.inl (Option.some.inj h).symm

/-! ## `timed_read` and `timed_write` -/

/-- What the system answers in a turn of the loop. -/
structure TimedAnswers where
  polls : List PollResult
  result : IoResult

/-- What a loop returns, and in which turn. It has made the system call once in each turn before. -/
structure TimedReturn where
  ret : ℕ
  turns : ℕ
  deriving DecidableEq

/-- The loop around `read` or `write`, with the wait for it. It has not returned if there is no
result. -/
def timedLoop (wait : List PollResult → Option ℤ) (timeout : ℤ) :
    List TimedAnswers → Option TimedReturn
  | [] => none
  | a :: as => do
    let waited ← if timeout > 0 then wait a.polls else pure 0
    if waited < 0 then pure ⟨sizeTOf (-1), 1⟩
    else
      -- the result is a `size_t`, and never negative
      let ret := a.result.value
      if ret < 0 ∧ timeout > 0 ∧ a.result.errno = some eagain then
        let r ← timedLoop wait timeout as
        pure ⟨r.ret, r.turns + 1⟩
      else if ret < 0 ∧ a.result.errno = some eintr then
        let r ← timedLoop wait timeout as
        pure ⟨r.ret, r.turns + 1⟩
      else pure ⟨ret, 1⟩

/-- Read with a deadline. -/
def timedRead (timeout : ℤ) (as : List TimedAnswers) : Option TimedReturn :=
  timedLoop readWait timeout as

/-- Write with a deadline. -/
def timedWrite (timeout : ℤ) (as : List TimedAnswers) : Option TimedReturn :=
  timedLoop writeWait timeout as

/-- The system call was interrupted, or there is a timeout and it would have blocked. -/
def IoResult.Transient (timeout : ℤ) (r : IoResult) : Prop :=
  r = .failed eintr ∨ timeout > 0 ∧ r = .failed eagain

section

variable (wait : List PollResult → Option ℤ) (timeout : ℤ)

/-- The system call is made in the turn. -/
def Called (a : TimedAnswers) : Prop := timeout > 0 → wait a.polls = some 0

/-- The system call is made, and fails for the moment. -/
def Retried (a : TimedAnswers) : Prop := Called wait timeout a ∧ a.result.Transient timeout

/-- The wait for the system call fails, or its result is one to return. -/
def Decides (a : TimedAnswers) (ret : ℕ) : Prop :=
  timeout > 0 ∧ wait a.polls = some (-1) ∧ ret = sizeTOf (-1) ∨
    Called wait timeout a ∧ ¬a.result.Transient timeout ∧ ret = a.result.value

/-- The loop returns in a turn if and only if the turn decides and the system call has failed for
the moment in each turn before. -/
def Retries (loop : List TimedAnswers → Option TimedReturn) (as : List TimedAnswers) : Prop :=
  ∀ ret turns, loop as = some ⟨ret, turns⟩ ↔ ∃ pre a post, as = pre ++ a :: post ∧
    turns = pre.length + 1 ∧ (∀ b ∈ pre, Retried wait timeout b) ∧ Decides wait timeout a ret

end

section

variable {wait : List PollResult → Option ℤ} {timeout : ℤ}

/-- The loop never goes into a second turn. -/
theorem timedLoop_cons (a : TimedAnswers) (as : List TimedAnswers) :
    timedLoop wait timeout (a :: as) =
      (if timeout > 0 then wait a.polls else some 0).map fun waited =>
        if waited < 0 then ⟨sizeTOf (-1), 1⟩ else ⟨a.result.value, 1⟩ := by
  rw [timedLoop]
  simp only [Nat.not_lt_zero, false_and, if_false]
  by_cases htime : timeout > 0
  · rw [if_pos htime, if_pos htime]
    cases wait a.polls with
    | none => rfl
    | some waited =>
      refine (show (if waited < 0 then _ else _) = some (if waited < 0 then _ else _) from ?_)
      split
      · rfl
      · rfl
  · rw [if_neg htime, if_neg htime]
    rfl

/-- It returns with the first result, or because the wait fails. -/
theorem timedLoop_eq_some_iff (hwait : ∀ polls r, wait polls = some r → r = 0 ∨ r = -1)
    {a : TimedAnswers} {as : List TimedAnswers} {ret turns : ℕ} :
    timedLoop wait timeout (a :: as) = some ⟨ret, turns⟩ ↔ turns = 1 ∧
      (timeout > 0 ∧ wait a.polls = some (-1) ∧ ret = sizeTOf (-1) ∨
        Called wait timeout a ∧ ret = a.result.value) := by
  rw [timedLoop_cons]
  by_cases htime : timeout > 0
  · rw [if_pos htime]
    cases hw : wait a.polls with
    | none =>
      refine iff_of_false nofun ?_
      rintro ⟨-, ⟨-, h, -⟩ | ⟨h, -⟩⟩
      · cases h
      · cases hw.symm.trans (h htime)
    | some waited =>
      rcases hwait _ _ hw with rfl | rfl
      · have hcalled : Called wait timeout a := fun _ => hw
        simp [hcalled, htime, eq_comm, and_comm]
      · have hcalled : ¬Called wait timeout a := fun h => by cases hw.symm.trans (h htime)
        simp [hcalled, htime, eq_comm, and_comm]
  · have hcalled : Called wait timeout a := fun h => absurd h htime
    simp [hcalled, htime, eq_comm, and_comm]

theorem not_retried_of_decides {a : TimedAnswers} {ret : ℕ} (h : Decides wait timeout a ret) :
    ¬Retried wait timeout a := by
  rintro ⟨hcalled, htransient⟩
  rcases h with ⟨htime, hfail, -⟩ | ⟨-, hnot, -⟩
  · cases hfail.symm.trans (hcalled htime)
  · exact hnot htransient

/-- The loop does what it is for if and only if the first call does not fail for the moment. -/
theorem timedLoop_retries_iff (hwait : ∀ polls r, wait polls = some r → r = 0 ∨ r = -1)
    (as : List TimedAnswers) : Retries wait timeout (timedLoop wait timeout) as ↔
      ∀ a ∈ as.head?, ¬Retried wait timeout a := by
  cases as with
  | nil =>
    refine iff_of_true (fun ret turns => iff_of_false nofun ?_) nofun
    rintro ⟨pre, a, post, heq, -⟩
    simp at heq
  | cons a as =>
    simp only [List.head?_cons, Option.mem_some_iff, forall_eq']
    constructor
    · intro h hretried
      have hloop : timedLoop wait timeout (a :: as) = some ⟨a.result.value, 1⟩ :=
        (timedLoop_eq_some_iff hwait).2 ⟨rfl, Or.inr ⟨hretried.1, rfl⟩⟩
      obtain ⟨pre, b, post, heq, hturns, -, hdecides⟩ := (h _ _).1 hloop
      obtain rfl : pre = [] := List.length_eq_zero_iff.1 (by omega)
      obtain ⟨rfl, -⟩ := List.cons.inj heq
      exact not_retried_of_decides hdecides hretried
    · intro hfirst ret turns
      rw [timedLoop_eq_some_iff hwait]
      constructor
      · rintro ⟨rfl, h⟩
        refine ⟨[], a, as, rfl, rfl, by simp, h.imp_right fun hcall => ?_⟩
        exact ⟨hcall.1, fun ht => hfirst ⟨hcall.1, ht⟩, hcall.2⟩
      · rintro ⟨pre, b, post, heq, rfl, hpre, hdecides⟩
        cases pre with
        | nil =>
          obtain ⟨rfl, -⟩ := List.cons.inj heq
          exact ⟨rfl, hdecides.imp_right fun hcall => ⟨hcall.1, hcall.2.2⟩⟩
        | cons c pre =>
          obtain ⟨rfl, -⟩ := List.cons.inj heq
          exact absurd (hpre a (List.mem_cons_self ..)) hfirst

end

/-- `timed_read` and `timed_write` do what they are for if and only if the first system call, if it
is made, does not fail for the moment. -/
theorem timed_retries_iff (timeout : ℤ) (as : List TimedAnswers) :
    (Retries readWait timeout (timedRead timeout) as ↔
      ∀ a ∈ as.head?, ¬Retried readWait timeout a) ∧
    (Retries writeWait timeout (timedWrite timeout) as ↔
      ∀ a ∈ as.head?, ¬Retried writeWait timeout a) :=
  ⟨timedLoop_retries_iff (fun _ _ => pollWait_eq) as,
    timedLoop_retries_iff (fun _ _ => pollWait_eq) as⟩

/-- A read is interrupted, and five bytes can be read after it. `timed_read` returns `SIZE_MAX`. -/
theorem not_timed_retries :
    timedRead 0 [⟨[], .failed eintr⟩, ⟨[], .done 5⟩] = some ⟨2 ^ 64 - 1, 1⟩ ∧
      ¬Retries readWait 0 (timedRead 0) [⟨[], .failed eintr⟩, ⟨[], .done 5⟩] := by
  have hloop : timedRead 0 [⟨[], .failed eintr⟩, ⟨[], .done 5⟩] = some ⟨2 ^ 64 - 1, 1⟩ := by
    decide
  have hretried : Retried readWait 0 ⟨[], .failed eintr⟩ :=
    ⟨fun h => absurd h (by decide), Or.inl rfl⟩
  refine ⟨hloop, fun h => ?_⟩
  exact (timedLoop_retries_iff (fun _ _ => pollWait_eq) _).1 h _ rfl hretried

end Nowra
