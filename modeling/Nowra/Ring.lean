import Mathlib.Logic.Function.Basic
import Mathlib.Data.List.Nodup

/-!
# Circular doubly linked lists

`Ring` is the node of `ring.c`, a successor and a predecessor pointer, null being `none`.
The operations write a heap of nodes in the order in which the code writes it. Following a
null pointer is `none`.

A segment (`Seg`) is a path whose successor and predecessor links are mutually inverse, and
a ring (`IsRing`) is a segment from the head back to itself without a repeated node. The
operations on rings are then operations on the list of nodes behind the head :
`IsRing.ringPrepend` inserts, `IsRing.ringDetach` removes.
-/

namespace Nowra

variable {α : Type*} [DecidableEq α]

/-- A ring node. -/
structure Ring (α : Type*) where
  succ : Option α
  pred : Option α

/-- The nodes at every address. -/
abbrev RingHeap (α : Type*) := α → Ring α

namespace RingHeap

/-- `ring->succ = v`. -/
def setSucc (h : RingHeap α) (ring : α) (v : Option α) : RingHeap α :=
  Function.update h ring { h ring with succ := v }

/-- `ring->pred = v`. -/
def setPred (h : RingHeap α) (ring : α) (v : Option α) : RingHeap α :=
  Function.update h ring { h ring with pred := v }

@[simp] theorem setSucc_succ (h : RingHeap α) (a b : α) (v : Option α) :
    (h.setSucc a v b).succ = if b = a then v else (h b).succ := by
  by_cases hb : b = a <;> simp [setSucc, hb]

@[simp] theorem setSucc_pred (h : RingHeap α) (a b : α) (v : Option α) :
    (h.setSucc a v b).pred = (h b).pred := by
  by_cases hb : b = a <;> simp [setSucc, hb]

@[simp] theorem setPred_succ (h : RingHeap α) (a b : α) (v : Option α) :
    (h.setPred a v b).succ = (h b).succ := by
  by_cases hb : b = a <;> simp [setPred, hb]

@[simp] theorem setPred_pred (h : RingHeap α) (a b : α) (v : Option α) :
    (h.setPred a v b).pred = if b = a then v else (h b).pred := by
  by_cases hb : b = a <;> simp [setPred, hb]

end RingHeap

/-! ## The operations of `ring.c` -/

/-- Initialize a ring head. -/
def ringInit (ring : α) (h : RingHeap α) : RingHeap α :=
  (h.setSucc ring (some ring)).setPred ring (some ring)

/-- Insert `entry` before `ring`. -/
def ringPrepend (ring entry : α) (h : RingHeap α) : Option (RingHeap α) := do
  let h := h.setPred entry (h ring).pred
  let h := h.setSucc entry (some ring)
  let pred ← (h ring).pred
  let h := h.setSucc pred (some entry)
  pure (h.setPred ring (some entry))

/-- Insert `entry` after `ring`. -/
def ringAppend (ring entry : α) (h : RingHeap α) : Option (RingHeap α) := do
  let h := h.setSucc entry (h ring).succ
  let h := h.setPred entry (some ring)
  let succ ← (h ring).succ
  let h := h.setPred succ (some entry)
  pure (h.setSucc ring (some entry))

/-- Remove `entry` from its ring. -/
def ringDetach (entry : α) (h : RingHeap α) : Option (RingHeap α) := do
  let succ ← (h entry).succ
  let pred ← (h entry).pred
  let h := h.setSucc pred (some succ)
  let h := h.setPred succ (some pred)
  pure ((h.setPred entry none).setSucc entry none)

/-- The links a prepend writes. -/
theorem ringPrepend_eq {h : RingHeap α} {ring entry p : α} (hne : ring ≠ entry)
    (hp : (h ring).pred = some p) : ∃ h', ringPrepend ring entry h = some h' ∧
      (∀ b, (h' b).succ =
        if b = p then some entry else if b = entry then some ring else (h b).succ) ∧
      ∀ b, (h' b).pred =
        if b = ring then some entry else if b = entry then some p else (h b).pred := by
  refine ⟨(((h.setPred entry (h ring).pred).setSucc entry (some ring)).setSucc p
    (some entry)).setPred ring (some entry), ?_, ?_, ?_⟩
  · simp [ringPrepend, hne, hp]
  · intro b
    simp
  · intro b
    simp [hp]

/-- The links a detach writes. -/
theorem ringDetach_eq {h : RingHeap α} {entry p s : α} (hs : (h entry).succ = some s)
    (hp : (h entry).pred = some p) : ∃ h', ringDetach entry h = some h' ∧
      (∀ b, (h' b).succ = if b = entry then none else if b = p then some s else (h b).succ) ∧
      ∀ b, (h' b).pred = if b = entry then none else if b = s then some p else (h b).pred := by
  refine ⟨_, by simp only [ringDetach, hs, hp, Option.bind_eq_bind, Option.bind_some]; rfl, ?_, ?_⟩
  · intro b
    simp
  · intro b
    simp

/-! ## Segments -/

/-- From `a` through the nodes `l` to `b`, each link has its inverse. -/
def Seg (h : RingHeap α) (a : α) : List α → α → Prop
  | [], b => (h a).succ = some b ∧ (h b).pred = some a
  | x :: l, b => (h a).succ = some x ∧ (h x).pred = some a ∧ Seg h x l b

omit [DecidableEq α] in
theorem seg_append {h : RingHeap α} {x b : α} {l₂ : List α} :
    ∀ {a : α} {l₁ : List α}, Seg h a (l₁ ++ x :: l₂) b ↔ Seg h a l₁ x ∧ Seg h x l₂ b
  | a, [] => by simp [Seg, and_assoc]
  | a, y :: l₁ => by rw [List.cons_append, Seg, Seg, seg_append, and_assoc, and_assoc]

omit [DecidableEq α] in
/-- A segment reads the successors of all nodes but the last, and the predecessors of all
but the first. -/
theorem Seg.congr {h h' : RingHeap α} {b : α} : ∀ {a : α} {l : List α}, Seg h a l b →
    (∀ x ∈ a :: l, (h' x).succ = (h x).succ) → (∀ x ∈ l ++ [b], (h' x).pred = (h x).pred) →
    Seg h' a l b
  | a, [], hs, hsucc, hpred => by
    simpa [Seg, hsucc a (by simp), hpred b (by simp)] using hs
  | a, x :: l, hs, hsucc, hpred => by
    obtain ⟨h1, h2, h3⟩ := hs
    refine ⟨by rw [hsucc a (by simp), h1], by rw [hpred x (by simp), h2], ?_⟩
    exact h3.congr (fun y hy => hsucc y (List.mem_cons_of_mem _ hy))
      fun y hy => hpred y (by simpa using Or.inr (List.mem_append.1 hy))

omit [DecidableEq α] in
/-- The last link of a segment. -/
theorem Seg.last {h : RingHeap α} {b : α} : ∀ {a : α} {l : List α}, Seg h a l b →
    (h ((a :: l).getLast (by simp))).succ = some b ∧
      (h b).pred = some ((a :: l).getLast (by simp))
  | a, [], hs => hs
  | a, x :: l, hs => by simpa using hs.2.2.last

omit [DecidableEq α] in
/-- Pointing the last link of a segment at `e` instead. -/
theorem Seg.relink {h h' : RingHeap α} {b e : α} : ∀ {a : α} {l : List α}, Seg h a l b →
    (a :: l).Nodup →
    (∀ x ∈ a :: l, x ≠ (a :: l).getLast (by simp) → (h' x).succ = (h x).succ) →
    (∀ x ∈ l, (h' x).pred = (h x).pred) →
    (h' ((a :: l).getLast (by simp))).succ = some e →
    (h' e).pred = some ((a :: l).getLast (by simp)) → Seg h' a l e
  | a, [], _, _, _, _, h1, h2 => ⟨h1, h2⟩
  | a, x :: l, hs, hnd, hsucc, hpred, h1, h2 => by
    obtain ⟨hax, hxa, hs⟩ := hs
    have hne : a ≠ (a :: x :: l).getLast (by simp) := by
      rw [List.getLast_cons (by simp)]
      exact fun h => (List.nodup_cons.1 hnd).1 (h ▸ List.getLast_mem _)
    refine ⟨by rw [hsucc a (by simp) hne, hax], by rw [hpred x (by simp), hxa], ?_⟩
    refine hs.relink (List.nodup_cons.1 hnd).2 (fun y hy hyl => ?_)
      (fun y hy => hpred y (List.mem_cons_of_mem _ hy)) (by simpa using h1) (by simpa using h2)
    exact hsucc y (List.mem_cons_of_mem _ hy) (by simpa using hyl)

/-! ## Rings -/

/-- The nodes behind `head`, in order, are `l`. -/
structure IsRing (h : RingHeap α) (head : α) (l : List α) : Prop where
  seg : Seg h head l head
  nodup : (head :: l).Nodup

theorem isRing_ringInit (h : RingHeap α) (head : α) : IsRing (ringInit head h) head [] :=
  ⟨by simp [Seg, ringInit], by simp⟩

omit [DecidableEq α] in
/-- A ring is empty if and only if its head succeeds itself. -/
theorem IsRing.succ_head {h : RingHeap α} {head : α} {l : List α} (hr : IsRing h head l) :
    (h head).succ = some (l.headD head) := by
  cases l with
  | nil => exact hr.seg.1
  | cons x l => exact hr.seg.1

omit [DecidableEq α] in
theorem IsRing.succ_head_ne {h : RingHeap α} {head : α} {l : List α} (hr : IsRing h head l) :
    (h head).succ ≠ some head ↔ l ≠ [] := by
  rw [hr.succ_head]
  cases l with
  | nil => simp
  | cons x l =>
    have hne : x ≠ head := fun h => (List.nodup_cons.1 hr.nodup).1 (by simp [h])
    simpa using hne

/-- Prepending a detached node to the head appends it to the list. -/
theorem IsRing.ringPrepend {h : RingHeap α} {head entry : α} {l : List α}
    (hr : IsRing h head l) (hne : entry ∉ head :: l) :
    ∃ h', ringPrepend head entry h = some h' ∧ IsRing h' head (l ++ [entry]) := by
  have hhe : head ≠ entry := fun h => hne (by simp [h])
  obtain ⟨h', heq, hsucc, hpred⟩ := ringPrepend_eq hhe hr.seg.last.2
  refine ⟨h', heq, seg_append.2 ⟨?_, ?_, ?_⟩, ?_⟩
  · refine hr.seg.relink hr.nodup (fun x hx hxl => ?_) (fun x hx => ?_) ?_ ?_
    · rw [hsucc, if_neg hxl, if_neg (ne_of_mem_of_not_mem hx hne)]
    · rw [hpred, if_neg (ne_of_mem_of_not_mem hx (List.nodup_cons.1 hr.nodup).1),
        if_neg (ne_of_mem_of_not_mem (List.mem_cons_of_mem _ hx) hne)]
    · rw [hsucc, if_pos rfl]
    · rw [hpred, if_neg hhe.symm, if_pos rfl]
  · rw [hsucc, if_neg (ne_of_mem_of_not_mem (List.getLast_mem _) hne).symm, if_pos rfl]
  · rw [hpred, if_pos rfl]
  · have hnd := hr.nodup
    rw [List.nodup_cons] at hnd ⊢
    refine ⟨by simpa using ⟨hnd.1, hhe⟩, List.nodup_append.2 ⟨hnd.2, by simp, ?_⟩⟩
    rintro a ha b hb rfl
    rw [List.mem_singleton] at hb
    exact hne (hb ▸ List.mem_cons_of_mem _ ha)

/-- Detaching a node removes it from the list. -/
theorem IsRing.ringDetach {h : RingHeap α} {head x : α} {l₁ l₂ : List α}
    (hr : IsRing h head (l₁ ++ x :: l₂)) :
    ∃ h', ringDetach x h = some h' ∧ IsRing h' head (l₁ ++ l₂) := by
  obtain ⟨hs₁, hs₂⟩ := seg_append.1 hr.seg
  have hnd : (head :: l₁ ++ x :: l₂).Nodup := hr.nodup
  obtain ⟨hnd₁, hnd₂, hdis⟩ := List.nodup_append.1 hnd
  have hnd' : (head :: (l₁ ++ l₂)).Nodup := hnd.sublist (by simp)
  -- the node after `x`, a list node or the head again
  cases l₂ with
  | nil =>
    obtain ⟨h', heq, hsucc, hpred⟩ := ringDetach_eq hs₂.1 hs₁.last.2
    refine ⟨h', heq, ?_, hnd'⟩
    rw [List.append_nil]
    refine hs₁.relink hnd₁ (fun y hy hyl => ?_) (fun y hy => ?_) ?_ ?_
    · rw [hsucc, if_neg (hdis y hy x (by simp)), if_neg hyl]
    · rw [hpred, if_neg (hdis y (List.mem_cons_of_mem _ hy) x (by simp)),
        if_neg (ne_of_mem_of_not_mem hy (List.nodup_cons.1 hnd₁).1)]
    · rw [hsucc, if_neg (hdis _ (List.getLast_mem _) x (by simp)), if_pos rfl]
    · rw [hpred, if_neg (hdis head (by simp) x (by simp)), if_pos rfl]
  | cons s l₂ =>
    obtain ⟨hxs, hsx, hs₂⟩ := hs₂
    obtain ⟨h', heq, hsucc, hpred⟩ := ringDetach_eq hxs hs₁.last.2
    have hsl : ∀ y ∈ s :: l₂, y ≠ x := fun y hy h => (List.nodup_cons.1 hnd₂).1 (h ▸ hy)
    refine ⟨h', heq, seg_append.2 ⟨?_, ?_⟩, hnd'⟩
    · refine hs₁.relink hnd₁ (fun y hy hyl => ?_) (fun y hy => ?_) ?_ ?_
      · rw [hsucc, if_neg (hdis y hy x (by simp)), if_neg hyl]
      · rw [hpred, if_neg (hdis y (List.mem_cons_of_mem _ hy) x (by simp)),
          if_neg (hdis y (List.mem_cons_of_mem _ hy) s (by simp))]
      · rw [hsucc, if_neg (hdis _ (List.getLast_mem _) x (by simp)), if_pos rfl]
      · rw [hpred, if_neg (hsl s (by simp)), if_pos rfl]
    · refine hs₂.congr (fun y hy => ?_) fun y hy => ?_
      · rw [hsucc, if_neg (hsl y hy),
          if_neg (hdis _ (List.getLast_mem _) y (List.mem_cons_of_mem _ hy)).symm]
      · rcases List.mem_append.1 hy with hy | hy
        · rw [hpred, if_neg (hsl y (List.mem_cons_of_mem _ hy)), if_neg]
          rintro rfl
          exact (List.nodup_cons.1 (List.nodup_cons.1 hnd₂).2).1 hy
        · rw [List.mem_singleton.1 hy, hpred, if_neg (hdis head (by simp) x (by simp)),
            if_neg (hdis head (by simp) s (by simp))]

omit [DecidableEq α] in
/-- Each node of a ring can be taken for its head. -/
theorem IsRing.rotate {h : RingHeap α} {head x : α} {l₁ l₂ : List α}
    (hr : IsRing h head (l₁ ++ x :: l₂)) : IsRing h x (l₂ ++ head :: l₁) := by
  obtain ⟨hs₁, hs₂⟩ := seg_append.1 hr.seg
  have hperm : (head :: (l₁ ++ x :: l₂)).Perm (x :: (l₂ ++ head :: l₁)) := by
    rw [← List.cons_append, ← List.cons_append]
    exact List.perm_append_comm
  exact ⟨seg_append.2 ⟨hs₂, hs₁⟩, hperm.nodup_iff.1 hr.nodup⟩

/-- Prepending a detached node to a node of the ring inserts it before the node. -/
theorem IsRing.ringInsert {h : RingHeap α} {head x entry : α} {l₁ l₂ : List α}
    (hr : IsRing h head (l₁ ++ x :: l₂)) (hne : entry ∉ head :: (l₁ ++ x :: l₂)) :
    ∃ h', Nowra.ringPrepend x entry h = some h' ∧ IsRing h' head (l₁ ++ entry :: x :: l₂) := by
  have hperm : (head :: (l₁ ++ x :: l₂)).Perm (x :: (l₂ ++ head :: l₁)) := by
    rw [← List.cons_append, ← List.cons_append]
    exact List.perm_append_comm
  obtain ⟨h', heq, hr'⟩ := hr.rotate.ringPrepend fun hmem => hne (hperm.mem_iff.2 hmem)
  rw [List.append_assoc, List.cons_append] at hr'
  refine ⟨h', heq, ?_⟩
  simpa using hr'.rotate

end Nowra
