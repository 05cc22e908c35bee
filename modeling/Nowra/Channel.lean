import Mathlib.Data.List.Basic
import Mathlib.Logic.Function.Basic

/-!
# A queue with many senders

`Channel` is a queue of messages with the name of the sender on each, kept together with what
each sender has sent and what was received of it. A message that is sent enters the queue
(`Channel.send`) or is lost on the way (`Channel.lose`), and the first one is received
(`Channel.receive`).

A sender is in order if what it has sent is what was received of it and then what is in the
queue (`Channel.Fifo`). Sends and receives keep every sender in order, and a loss keeps every
other one.
-/

namespace Nowra

/-- Messages `μ` in order, from senders `ι`. -/
structure Channel (ι μ : Type*) where
  queue : List (ι × μ)
  sent : ι → List μ
  received : ι → List μ

namespace Channel

variable {ι μ : Type*} [DecidableEq ι]

/-- A channel that nobody has used. -/
def empty : Channel ι μ := ⟨[], fun _ => [], fun _ => []⟩

/-- The message does not get into the queue. -/
def lose (c : Channel ι μ) (i : ι) (m : μ) : Channel ι μ :=
  { c with sent := Function.update c.sent i (c.sent i ++ [m]) }

def send (c : Channel ι μ) (i : ι) (m : μ) : Channel ι μ :=
  { c.lose i m with queue := c.queue ++ [(i, m)] }

/-- Take the first message off the queue, if there is one. -/
def receive (c : Channel ι μ) : Channel ι μ :=
  match c.queue with
  | [] => c
  | (i, m) :: queue =>
    { c with queue := queue, received := Function.update c.received i (c.received i ++ [m]) }

/-- What a sender has in the queue. -/
def inFlight (c : Channel ι μ) (i : ι) : List μ :=
  (c.queue.filter fun x => x.1 = i).map (·.2)

/-- Nothing of the sender is lost, doubled or out of order. -/
def Fifo (c : Channel ι μ) (i : ι) : Prop :=
  c.sent i = c.received i ++ c.inFlight i

@[simp] theorem lose_queue (c : Channel ι μ) (i : ι) (m : μ) : (c.lose i m).queue = c.queue := rfl

@[simp] theorem lose_received (c : Channel ι μ) (i : ι) (m : μ) :
    (c.lose i m).received = c.received := rfl

@[simp] theorem send_queue (c : Channel ι μ) (i : ι) (m : μ) :
    (c.send i m).queue = c.queue ++ [(i, m)] := rfl

@[simp] theorem send_received (c : Channel ι μ) (i : ι) (m : μ) :
    (c.send i m).received = c.received := rfl

@[simp] theorem send_sent (c : Channel ι μ) (i : ι) (m : μ) :
    (c.send i m).sent = (c.lose i m).sent := rfl

@[simp] theorem lose_sent_self (c : Channel ι μ) (i : ι) (m : μ) :
    (c.lose i m).sent i = c.sent i ++ [m] := by
  simp [lose]

theorem lose_sent_of_ne (c : Channel ι μ) {i j : ι} (m : μ) (h : j ≠ i) :
    (c.lose i m).sent j = c.sent j := by
  simp [lose, h]

theorem receive_eq {c : Channel ι μ} {i : ι} {m : μ} {queue : List (ι × μ)}
    (h : c.queue = (i, m) :: queue) : c.receive = { c with
      queue := queue
      received := Function.update c.received i (c.received i ++ [m]) } := by
  simp only [receive, h]

@[simp] theorem receive_sent (c : Channel ι μ) : c.receive.sent = c.sent := by
  unfold receive
  split <;> rfl

theorem receive_queue_subset (c : Channel ι μ) : c.receive.queue ⊆ c.queue := by
  unfold receive
  split
  · exact List.Subset.refl _
  · rename_i hq
    rw [hq]
    exact List.subset_cons_self _ _

/-- Only the sender of the first message has one more message received. -/
theorem receive_received_self {c : Channel ι μ} {i : ι} {m : μ} {queue : List (ι × μ)}
    (h : c.queue = (i, m) :: queue) : c.receive.received i = c.received i ++ [m] := by
  rw [receive_eq h]
  exact Function.update_self _ _ _

theorem receive_received_of_ne {c : Channel ι μ} {i j : ι} {m : μ} {queue : List (ι × μ)}
    (h : c.queue = (i, m) :: queue) (hne : j ≠ i) : c.receive.received j = c.received j := by
  rw [receive_eq h]
  exact Function.update_of_ne hne _ _

theorem inFlight_eq_nil {c : Channel ι μ} {i : ι} (h : ∀ x ∈ c.queue, x.1 ≠ i) :
    c.inFlight i = [] := by
  rw [inFlight, List.filter_eq_nil_iff.2 (by simpa using h), List.map_nil]

/-- A message of another sender may get lost. -/
theorem Fifo.lose {c : Channel ι μ} {i j : ι} (h : c.Fifo i) (m : μ) (hne : i ≠ j) :
    (c.lose j m).Fifo i :=
  (c.lose_sent_of_ne m hne).trans h

theorem Fifo.send {c : Channel ι μ} {i : ι} (h : c.Fifo i) (j : ι) (m : μ) :
    (c.send j m).Fifo i := by
  unfold Fifo inFlight at *
  rcases eq_or_ne i j with rfl | hne
  · simp [h]
  · simp [c.lose_sent_of_ne m hne, h, hne.symm]

theorem Fifo.receive {c : Channel ι μ} {i : ι} (h : c.Fifo i) : c.receive.Fifo i := by
  unfold Fifo at *
  rw [receive_sent, h]
  cases hq : c.queue with
  | nil => simp only [Channel.receive, hq]
  | cons x queue =>
    obtain ⟨j, m⟩ := x
    rw [receive_eq hq]
    simp only [inFlight, hq]
    rcases eq_or_ne i j with rfl | hne
    · simp
    · simp [hne, hne.symm]

/-- When the queue is empty, everything was received. -/
theorem Fifo.drained {c : Channel ι μ} {i : ι} (h : c.Fifo i) (hq : c.queue = []) :
    c.received i = c.sent i := by
  rw [h, inFlight, hq, List.filter_nil, List.map_nil, List.append_nil]

/-! ## Families of channels -/

omit [DecidableEq ι] in
/-- How the channels of a family are related to those of the family in which one has changed. -/
theorem update_rel {κ : Type*} [DecidableEq κ] {f : κ → Channel ι μ} {k : κ} {c : Channel ι μ}
    (P : κ → Channel ι μ → Channel ι μ → Prop) (hself : P k (f k) c)
    (hrefl : ∀ t ≠ k, P t (f t) (f t)) (t : κ) : P t (f t) (Function.update f k c t) := by
  rcases eq_or_ne t k with rfl | hne
  · rwa [Function.update_self]
  · rw [Function.update_of_ne hne]
    exact hrefl t hne

end Channel

end Nowra
