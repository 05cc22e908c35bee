import Mathlib.Data.List.Basic

/-!
# Messages of one length in a byte stream

Messages are written to a stream one after the other, each as a byte string of one length
(`FrameCode`), and read back a message at a time. A read gets fewer bytes than a message only if
there are no more (`FrameCode.read`).

As long as whole messages are written and read, the reader gets the messages that were written
(`read_stream_cons`). When there are other bytes in the stream, how far the reader is off does not
change with whole messages (`length_stream_mod`, `length_read_mod`), and is nothing after a read
that gets too few bytes (`read_snd_of_short`).
-/

namespace Nowra

/-- Messages `μ` as strings of `β` of one length. -/
structure FrameCode (μ β : Type*) where
  size : ℕ
  encode : μ → List β
  decode : List β → μ
  size_pos : 0 < size
  length_encode : ∀ m, (encode m).length = size
  decode_encode : ∀ m, decode (encode m) = m

/-- What a read for a message gets. -/
inductive FrameRead (μ : Type*)
  | whole (m : μ)
  /-- Fewer bytes than a message. -/
  | short (n : ℕ)

namespace FrameCode

variable {μ β : Type*} (c : FrameCode μ β)

/-- Messages one after the other. -/
def stream (ms : List μ) : List β := ms.flatMap c.encode

/-- Read a message, and return what is left. -/
def read (bytes : List β) : FrameRead μ × List β :=
  (if c.size ≤ bytes.length then .whole (c.decode (bytes.take c.size)) else .short bytes.length,
    bytes.drop c.size)

@[simp] theorem stream_nil : c.stream [] = [] := rfl

theorem stream_cons (m : μ) (ms : List μ) : c.stream (m :: ms) = c.encode m ++ c.stream ms :=
  List.flatMap_cons

theorem stream_append (ms ms' : List μ) : c.stream (ms ++ ms') = c.stream ms ++ c.stream ms' :=
  List.flatMap_append

@[simp] theorem stream_singleton (m : μ) : c.stream [m] = c.encode m := by
  simp [stream]

variable {c}

theorem encode_ne_nil (m : μ) : c.encode m ≠ [] := by
  refine List.ne_nil_of_length_pos ?_
  rw [c.length_encode]
  exact c.size_pos

theorem stream_eq_nil_iff {ms : List μ} : c.stream ms = [] ↔ ms = [] := by
  cases ms with
  | nil => simp
  | cons m ms => simp [stream_cons, encode_ne_nil]

/-- A whole message is read back. -/
theorem read_stream_cons (m : μ) (ms : List μ) :
    c.read (c.stream (m :: ms)) = (.whole m, c.stream ms) := by
  have hlen := c.length_encode m
  have htake : (c.encode m ++ c.stream ms).take c.size = c.encode m := by
    rw [← hlen, List.take_left]
  have hdrop : (c.encode m ++ c.stream ms).drop c.size = c.stream ms := by
    rw [← hlen, List.drop_left]
  rw [read, stream_cons, htake, hdrop, c.decode_encode, if_pos]
  rw [List.length_append, hlen]
  exact Nat.le_add_right _ _

/-- There are no bytes after too few. -/
theorem read_snd_of_short {bytes : List β} {n : ℕ} (h : (c.read bytes).1 = .short n) :
    (c.read bytes).2 = [] := by
  unfold read at h ⊢
  dsimp only at h ⊢
  split at h
  · cases h
  · exact List.drop_eq_nil_of_le (by omega)

/-- A whole message does not change how far the reader is off. -/
theorem length_read_mod {bytes : List β} {m : μ} (h : (c.read bytes).1 = .whole m) :
    (c.read bytes).2.length % c.size = bytes.length % c.size := by
  unfold read at h ⊢
  dsimp only at h ⊢
  split at h
  · rename_i hle
    rw [List.length_drop, ← Nat.add_mod_right (bytes.length - c.size), Nat.sub_add_cancel hle]
  · cases h

/-- Nor do those that are written. -/
theorem length_stream_mod (ms : List μ) : (c.stream ms).length % c.size = 0 := by
  induction ms with
  | nil => simp
  | cons m ms ih => rw [stream_cons, List.length_append, c.length_encode, Nat.add_mod_left, ih]

end FrameCode

end Nowra
