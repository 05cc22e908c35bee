import Mathlib.Data.Int.Notation
import Mathlib.Data.Nat.Notation

/-!
# Panics

`msg_panic` ends the process. A function that can panic returns an `Except Panic`, with one
constructor for each message that a modelled function passes to `msg_panic`.
-/

namespace Nowra

/-- What is passed to `msg_panic`. -/
inductive Panic
  /-- `bad file descriptor: %d` -/
  | badFileDescriptor (fd : ℤ)
  /-- `event_request_timer: invalid delay: %d` -/
  | invalidDelay (delay : ℤ)
  /-- `binhash_delete: unknown_key: "%s"` -/
  | unknownKey (key : List (BitVec 8))
  /-- `master_spawn: at process limit %d` -/
  | atProcessLimit (totalProc : ℤ)
  /-- `master_spawn: processes available: %d` -/
  | processesAvailable (availProc : ℤ)
  /-- `master_spawn: throttled service: %s` -/
  | throttledService (path : String)
  /-- `master_avail_more: process already available` -/
  | processAlreadyAvailable
  /-- `master_avail_less: process not available` -/
  | processNotAvailable
  /-- `master_reap: unknown pid: %d` -/
  | unknownPid (pid : BitVec 32)
  /-- `master_status_event: read EOF status` -/
  | readEofStatus
  /-- `master_status_event: pointer corruption: %p != %p` -/
  | pointerCorruption (proc serv : ℕ)
  /-- `master_status_init: status events already enabled` -/
  | statusEventsAlreadyEnabled
  /-- `master_status_cleanup: status events not enabled` -/
  | statusEventsNotEnabled
  /-- `%s: requested length %d` -/
  | requestedLength (fname : String) (len : ℤ)
  /-- `%s: null pointer input` -/
  | nullPointerInput (fname : String)
  /-- `%s: corrupt or unallocated memory block` -/
  | corruptOrUnallocated (fname : String)
  /-- `%s: corrupt memory block length` -/
  | corruptBlockLength (fname : String)
  /-- `%s: null pointer argument` -/
  | nullPointerArgument (fname : String)
  /-- `%s: bad length %d` -/
  | badLength (fname : String) (len : ℤ)
  /-- `vbuf_print: unknown format type: %c` -/
  | unknownFormatType (type : BitVec 8)
  deriving DecidableEq

/-- A sequence that returns has returned from its first part. -/
theorem bind_ok_iff {ε α β : Type} {x : Except ε α} {f : α → Except ε β} {b : β} :
    x >>= f = .ok b ↔ ∃ a, x = .ok a ∧ f a = .ok b := by
  cases x with
  | error e => exact ⟨nofun, nofun⟩
  | ok a => exact ⟨fun h => ⟨a, rfl, h⟩, fun ⟨_, ha, h⟩ => Except.ok.inj ha ▸ h⟩

/-- A sequence that panics does so in its first part or after it. -/
theorem bind_error_iff {ε α β : Type} {x : Except ε α} {f : α → Except ε β} {e : ε} :
    x >>= f = .error e ↔ x = .error e ∨ ∃ a, x = .ok a ∧ f a = .error e := by
  cases x with
  | error e' =>
    refine ⟨fun h => Or.inl ?_, ?_⟩
    · exact congrArg Except.error (Except.error.inj h)
    · rintro (h | ⟨a, ha, -⟩)
      · exact congrArg Except.error (Except.error.inj h)
      · cases ha
  | ok a =>
    refine ⟨fun h => Or.inr ⟨a, rfl, h⟩, ?_⟩
    rintro (h | ⟨_, ha, h⟩)
    · cases h
    · exact Except.ok.inj ha ▸ h

theorem toOption_eq_some {ε α : Type} {x : Except ε α} {a : α} (h : x.toOption = some a) :
    x = .ok a := by
  cases x with
  | error e => cases h
  | ok b => exact congrArg Except.ok (Option.some.inj h)

theorem ok_of_map_some {ε α : Type} {x : Except ε α} {a : α} (h : some <$> x = .ok (some a)) :
    x = .ok a := by
  cases x with
  | error e => cases h
  | ok b => exact congrArg Except.ok (Option.some.inj (Except.ok.inj h))

end Nowra
