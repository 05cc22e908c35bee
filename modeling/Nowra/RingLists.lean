import Mathlib.Data.Fintype.Basic
import Mathlib.Data.List.InsertIdx
import Mathlib.Data.List.Perm.Basic
import Nowra.Ring

/-!
# Sequences of ring operations

A heap holds any number of rings, each known by its head, and the lists behind the heads are
an abstract state (`Rings`). An operation next to a node acts on the list of the ring that
has the node, and on no other : `ring_prepend` inserts immediately before the node,
`ring_append` immediately after it, `ring_detach` erases it. A node before the head is the
last node of the list, and one after the head is the first.

`Rings.run` is the refinement for one operation and `rings_foldlM` for every sequence of
them. The links stay mutually inverse, walking the ring in either direction lists the
abstract list (`IsRing.ringWalk_succ`, `IsRing.ringWalk_pred`), a ring no operation was next
to keeps its nodes, and a node that was detached last has null links.

The code of `ring_append` is that of `ring_prepend` with the two links exchanged
(`ringAppend_flip`), and a ring read backwards is a ring (`IsRing.flip`).
-/

namespace Nowra

variable {α : Type*} [DecidableEq α]

/-! ## Rings backwards -/

/-- The heap with the two links of every node exchanged. -/
def RingHeap.flip (h : RingHeap α) : RingHeap α := fun a => ⟨(h a).pred, (h a).succ⟩

omit [DecidableEq α] in
@[simp] theorem RingHeap.flip_flip (h : RingHeap α) : h.flip.flip = h := rfl

omit [DecidableEq α] in
@[simp] theorem RingHeap.flip_apply_pred (h : RingHeap α) (a : α) :
    (h.flip a).pred = (h a).succ := rfl

@[simp] theorem RingHeap.flip_setSucc (h : RingHeap α) (a : α) (v : Option α) :
    (h.setSucc a v).flip = h.flip.setPred a v := by
  funext b
  by_cases hb : b = a <;> simp [flip, setSucc, setPred, hb]

@[simp] theorem RingHeap.flip_setPred (h : RingHeap α) (a : α) (v : Option α) :
    (h.setPred a v).flip = h.flip.setSucc a v := by
  funext b
  by_cases hb : b = a <;> simp [flip, setSucc, setPred, hb]

/-- `ring_append` is `ring_prepend` on the ring backwards. -/
theorem ringAppend_flip (ring entry : α) (h : RingHeap α) :
    ringAppend ring entry h = (ringPrepend ring entry h.flip).map RingHeap.flip := by
  have hs : (((h.setSucc entry (h ring).succ).setPred entry (some ring)) ring).succ =
      (h ring).succ := by
    by_cases he : ring = entry <;> simp [he]
  have hp : (((h.flip.setPred entry (h.flip ring).pred).setSucc entry (some ring)) ring).pred =
      (h ring).succ := by
    by_cases he : ring = entry <;> simp [he]
  simp only [ringAppend, ringPrepend, hs, hp, Option.bind_eq_bind, Option.map_bind]
  cases hr : (h ring).succ with
  | none => rfl
  | some s => simp [hr]

omit [DecidableEq α] in
theorem Seg.flip {h : RingHeap α} {b : α} : ∀ {a : α} {l : List α}, Seg h a l b →
    Seg h.flip b l.reverse a
  | a, [], hs => ⟨hs.2, hs.1⟩
  | a, x :: l, hs => by
    rw [List.reverse_cons]
    exact seg_append.2 ⟨hs.2.2.flip, hs.2.1, hs.1⟩

omit [DecidableEq α] in
/-- A ring read backwards is a ring. -/
theorem IsRing.flip {h : RingHeap α} {head : α} {l : List α} (hr : IsRing h head l) :
    IsRing h.flip head l.reverse :=
  ⟨hr.seg.flip, by simpa using hr.nodup⟩

/-! ## Walking a ring -/

/-- The nodes from `ring` on, up to the head, along the link `next`. It gives up at a null
link and when the turns run out. -/
def ringWalk (next : Ring α → Option α) (h : RingHeap α) (head : α) :
    ℕ → Option α → Option (List α)
  | 0, _ => none
  | _ + 1, none => none
  | turns + 1, some ring =>
    if ring = head then some []
    else (ringWalk next h head turns (next (h ring))).map (ring :: ·)

theorem Seg.ringWalk {h : RingHeap α} {head : α} : ∀ {a : α} {l : List α} {turns : ℕ},
    Seg h a l head → head ∉ l → l.length < turns →
    Nowra.ringWalk Ring.succ h head turns (h a).succ = some l
  | a, [], turns + 1, hs, _, _ => by rw [hs.1, Nowra.ringWalk, if_pos rfl]
  | a, x :: l, turns + 1, hs, hl, hlen => by
    obtain ⟨hax, -, hs⟩ := hs
    rw [List.mem_cons, not_or] at hl
    rw [hax, Nowra.ringWalk, if_neg (Ne.symm hl.1), hs.ringWalk hl.2 (Nat.lt_of_succ_lt_succ hlen)]
    rfl

/-- Walking the successors lists the nodes behind the head. -/
theorem IsRing.ringWalk_succ {h : RingHeap α} {head : α} {l : List α} {turns : ℕ}
    (hr : IsRing h head l) (hlen : l.length < turns) :
    ringWalk Ring.succ h head turns (h head).succ = some l :=
  hr.seg.ringWalk (List.nodup_cons.1 hr.nodup).1 hlen

theorem ringWalk_flip (h : RingHeap α) (head : α) : ∀ (turns : ℕ) (ring : Option α),
    ringWalk Ring.succ h.flip head turns ring = ringWalk Ring.pred h head turns ring
  | 0, _ => rfl
  | _ + 1, none => rfl
  | turns + 1, some ring => by
    rw [ringWalk, ringWalk, ringWalk_flip h head turns]
    rfl

/-- Walking the predecessors lists them backwards. -/
theorem IsRing.ringWalk_pred {h : RingHeap α} {head : α} {l : List α} {turns : ℕ}
    (hr : IsRing h head l) (hlen : l.length < turns) :
    ringWalk Ring.pred h head turns (h head).pred = some l.reverse := by
  rw [← ringWalk_flip]
  exact hr.flip.ringWalk_succ (by simpa using hlen)

/-! ## One operation on one ring -/

omit [DecidableEq α] in
/-- A ring seen from one of its nodes. -/
theorem IsRing.around {h : RingHeap α} {head x : α} {l : List α} (hr : IsRing h head l)
    (hx : x ∈ head :: l) : ∃ m, IsRing h x m ∧ (x :: m).Perm (head :: l) := by
  rcases List.mem_cons.1 hx with rfl | hx
  · exact ⟨l, hr, .refl _⟩
  · obtain ⟨l₁, l₂, rfl⟩ := List.append_of_mem hx
    refine ⟨_, hr.rotate, ?_⟩
    rw [← List.cons_append, ← List.cons_append]
    exact List.perm_append_comm

omit [DecidableEq α] in
theorem IsRing.succ_mem {h : RingHeap α} {head x : α} {l : List α} (hr : IsRing h head l)
    (hx : x ∈ head :: l) : ∃ s ∈ head :: l, (h x).succ = some s := by
  obtain ⟨m, hm, hperm⟩ := hr.around hx
  refine ⟨m.headD x, hperm.mem_iff.1 ?_, hm.succ_head⟩
  cases m <;> simp

omit [DecidableEq α] in
theorem IsRing.pred_mem {h : RingHeap α} {head x : α} {l : List α} (hr : IsRing h head l)
    (hx : x ∈ head :: l) : ∃ p ∈ head :: l, (h x).pred = some p := by
  obtain ⟨m, hm, hperm⟩ := hr.around hx
  exact ⟨_, hperm.mem_iff.1 (List.getLast_mem _), hm.seg.last.2⟩

omit [DecidableEq α] in
theorem Ring.eq_of_links {r s : Ring α} (hs : r.succ = s.succ) (hp : r.pred = s.pred) :
    r = s := by
  cases r
  cases s
  simp_all

/-- A prepend writes the nodes of one ring and the entry. -/
theorem IsRing.ringPrepend_frame {h h' : RingHeap α} {head ring entry : α} {l : List α}
    (hr : IsRing h head l) (hring : ring ∈ head :: l) (hne : entry ∉ head :: l)
    (heq : Nowra.ringPrepend ring entry h = some h') {b : α} (hb : b ∉ head :: l)
    (hbe : b ≠ entry) : h' b = h b := by
  obtain ⟨p, hp, hpred⟩ := hr.pred_mem hring
  obtain ⟨h'', heq', hs', hp'⟩ := ringPrepend_eq (ne_of_mem_of_not_mem hring hne) hpred
  obtain rfl := Option.some.inj (heq.symm.trans heq')
  refine Ring.eq_of_links ?_ ?_
  · rw [hs', if_neg (ne_of_mem_of_not_mem hp hb).symm, if_neg hbe]
  · rw [hp', if_neg (ne_of_mem_of_not_mem hring hb).symm, if_neg hbe]

theorem IsRing.ringAppend_frame {h h' : RingHeap α} {head ring entry : α} {l : List α}
    (hr : IsRing h head l) (hring : ring ∈ head :: l) (hne : entry ∉ head :: l)
    (heq : Nowra.ringAppend ring entry h = some h') {b : α} (hb : b ∉ head :: l)
    (hbe : b ≠ entry) : h' b = h b := by
  rw [ringAppend_flip, Option.map_eq_some_iff] at heq
  obtain ⟨g, hg, rfl⟩ := heq
  have hgb : g b = h.flip b := hr.flip.ringPrepend_frame (by simpa using hring)
    (by simpa using hne) hg (by simpa using hb) hbe
  rw [RingHeap.flip, hgb]
  rfl

/-- A detach writes the nodes of one ring, and leaves null links in the entry. -/
theorem IsRing.ringDetach_frame {h h' : RingHeap α} {head entry : α} {l : List α}
    (hr : IsRing h head l) (hent : entry ∈ head :: l)
    (heq : Nowra.ringDetach entry h = some h') :
    (∀ b, b ∉ head :: l → h' b = h b) ∧ h' entry = ⟨none, none⟩ := by
  obtain ⟨p, hp, hpred⟩ := hr.pred_mem hent
  obtain ⟨s, hs, hsucc⟩ := hr.succ_mem hent
  obtain ⟨h'', heq', hs', hp'⟩ := ringDetach_eq hsucc hpred
  obtain rfl := Option.some.inj (heq.symm.trans heq')
  refine ⟨fun b hb => Ring.eq_of_links ?_ ?_, Ring.eq_of_links ?_ ?_⟩
  · rw [hs', if_neg (ne_of_mem_of_not_mem hent hb).symm,
      if_neg (ne_of_mem_of_not_mem hp hb).symm]
  · rw [hp', if_neg (ne_of_mem_of_not_mem hent hb).symm,
      if_neg (ne_of_mem_of_not_mem hs hb).symm]
  · rw [hs', if_pos rfl]
  · rw [hp', if_pos rfl]

/-! ## The list operations -/

/-- `entry` immediately before `ring` in the list behind a head, at its end if `ring` is the
head. -/
def insertBefore (ring entry : α) (l : List α) : List α :=
  l.insertIdx (l.idxOf ring) entry

/-- `entry` immediately after `ring`, at the front if `ring` is the head. -/
def insertAfter (head ring entry : α) (l : List α) : List α :=
  l.insertIdx ((head :: l).idxOf ring) entry

theorem insertBefore_head {head : α} {l : List α} (hl : head ∉ l) (entry : α) :
    insertBefore head entry l = l ++ [entry] := by
  rw [insertBefore, List.idxOf_eq_length hl, List.insertIdx_length_self]

omit [DecidableEq α] in
theorem insertIdx_append (entry : α) (n : ℕ) (l₂ : List α) : ∀ l₁ : List α,
    (l₁ ++ l₂).insertIdx (l₁.length + n) entry = l₁ ++ l₂.insertIdx n entry
  | [] => by simp
  | x :: l₁ => by
    rw [List.length_cons, Nat.add_right_comm, List.cons_append, List.insertIdx_succ_cons,
      insertIdx_append entry n l₂ l₁, List.cons_append]

theorem insertBefore_append {ring : α} {l₁ : List α} (hl : ring ∉ l₁) (entry : α)
    (l₂ : List α) : insertBefore ring entry (l₁ ++ ring :: l₂) = l₁ ++ entry :: ring :: l₂ := by
  rw [insertBefore, List.idxOf_append_of_notMem hl, List.idxOf_cons_self, insertIdx_append,
    List.insertIdx_zero]

theorem insertAfter_head (head entry : α) (l : List α) :
    insertAfter head head entry l = entry :: l := by
  rw [insertAfter, List.idxOf_cons_self, List.insertIdx_zero]

theorem insertAfter_append {head ring : α} {l₁ : List α} (hne : ring ≠ head) (hl : ring ∉ l₁)
    (entry : α) (l₂ : List α) :
    insertAfter head ring entry (l₁ ++ ring :: l₂) = l₁ ++ ring :: entry :: l₂ := by
  rw [insertAfter, List.idxOf_cons_ne _ hne.symm, List.idxOf_append_of_notMem hl,
    List.idxOf_cons_self]
  exact insertIdx_append entry 1 (ring :: l₂) l₁

theorem mem_insertBefore {ring entry b : α} {l : List α} (h : b ∈ insertBefore ring entry l) :
    b ∈ l ∨ b = entry := by
  rcases List.eq_or_mem_of_mem_insertIdx h with h | h
  · exact Or.inr h
  · exact Or.inl h

theorem mem_insertAfter {head ring entry b : α} {l : List α}
    (h : b ∈ insertAfter head ring entry l) : b ∈ l ∨ b = entry := by
  rcases List.eq_or_mem_of_mem_insertIdx h with h | h
  · exact Or.inr h
  · exact Or.inl h

/-- Prepending next to any node of a ring, the head included. -/
theorem IsRing.ringPrepend_insertBefore {h : RingHeap α} {head ring entry : α} {l : List α}
    (hr : IsRing h head l) (hring : ring ∈ head :: l) (hne : entry ∉ head :: l) :
    ∃ h', Nowra.ringPrepend ring entry h = some h' ∧
      IsRing h' head (insertBefore ring entry l) := by
  have hhead : head ∉ l := (List.nodup_cons.1 hr.nodup).1
  rcases List.mem_cons.1 hring with rfl | hring
  · rw [insertBefore_head hhead]
    exact hr.ringPrepend hne
  · obtain ⟨l₁, l₂, rfl, hl₁⟩ := List.eq_append_cons_of_mem hring
    rw [insertBefore_append hl₁]
    exact hr.ringInsert hne

/-- Appending next to any node of a ring, the head included. -/
theorem IsRing.ringAppend_insertAfter {h : RingHeap α} {head ring entry : α} {l : List α}
    (hr : IsRing h head l) (hring : ring ∈ head :: l) (hne : entry ∉ head :: l) :
    ∃ h', Nowra.ringAppend ring entry h = some h' ∧
      IsRing h' head (insertAfter head ring entry l) := by
  have hflip : ∃ g, Nowra.ringPrepend ring entry h.flip = some g ∧
      IsRing g.flip head (insertAfter head ring entry l) := by
    have hne' : entry ∉ head :: l.reverse := by simpa using hne
    rcases List.mem_cons.1 hring with rfl | hring
    · obtain ⟨g, hg, hgr⟩ := hr.flip.ringPrepend hne'
      refine ⟨g, hg, ?_⟩
      rw [insertAfter_head]
      simpa using hgr.flip
    · obtain ⟨l₁, l₂, rfl, hl₁⟩ := List.eq_append_cons_of_mem hring
      have hhead : ring ≠ head :=
        ne_of_mem_of_not_mem hring (List.nodup_cons.1 hr.nodup).1
      have hrev : (l₁ ++ ring :: l₂).reverse = l₂.reverse ++ ring :: l₁.reverse := by simp
      have hflip := hr.flip
      rw [hrev] at hflip hne'
      obtain ⟨g, hg, hgr⟩ := hflip.ringInsert hne'
      refine ⟨g, hg, ?_⟩
      rw [insertAfter_append hhead hl₁]
      simpa using hgr.flip
  obtain ⟨g, hg, hgr⟩ := hflip
  exact ⟨g.flip, by rw [ringAppend_flip, hg]; rfl, hgr⟩

/-! ## The operations on all rings -/

/-- A call of one of the ring operations. -/
inductive RingOp (α : Type*)
  | prepend (ring entry : α)
  | append (ring entry : α)
  | detach (entry : α)

namespace RingOp

/-- The code of the call. -/
def run (h : RingHeap α) : RingOp α → Option (RingHeap α)
  | prepend ring entry => ringPrepend ring entry h
  | append ring entry => ringAppend ring entry h
  | detach entry => ringDetach entry h

/-- The node of a ring at which the call works. -/
def place : RingOp α → α
  | prepend ring _ => ring
  | append ring _ => ring
  | detach entry => entry

/-- The node that enters or leaves a ring. -/
def entry : RingOp α → α
  | prepend _ entry => entry
  | append _ entry => entry
  | detach entry => entry

/-- The call on the list behind `head`. -/
def onList (head : α) (l : List α) : RingOp α → List α
  | prepend ring entry => insertBefore ring entry l
  | append ring entry => insertAfter head ring entry l
  | detach entry => l.erase entry

/-- The call on the lists of all rings. Only the ring that has its place changes. -/
def onRings (rings : α → Option (List α)) (op : RingOp α) (head : α) : Option (List α) :=
  (rings head).map fun l => if op.place ∈ head :: l then op.onList head l else l

/-- A node is inserted next to a node of some ring while it is in none itself, and the node
that is detached is not a head. -/
def Legal (rings : α → Option (List α)) : RingOp α → Prop
  | prepend ring entry | append ring entry =>
    (∃ head, ∃ l ∈ rings head, ring ∈ head :: l) ∧ ∀ head, ∀ l ∈ rings head, entry ∉ head :: l
  | detach entry => ∃ head, ∃ l ∈ rings head, entry ∈ l

instance [Fintype α] (rings : α → Option (List α)) : ∀ op, Decidable (Legal rings op)
  | prepend ring entry | append ring entry =>
    inferInstanceAs (Decidable ((∃ head, ∃ l ∈ rings head, ring ∈ head :: l) ∧
      ∀ head, ∀ l ∈ rings head, entry ∉ head :: l))
  | detach entry => inferInstanceAs (Decidable (∃ head, ∃ l ∈ rings head, entry ∈ l))

end RingOp

/-! ## Every sequence of operations -/

/-- The rings of a heap and the lists behind their heads. -/
structure Rings (h : RingHeap α) (rings : α → Option (List α)) : Prop where
  isRing : ∀ head l, rings head = some l → IsRing h head l
  disjoint : ∀ a l b m, rings a = some l → rings b = some m → a ≠ b →
    (a :: l).Disjoint (b :: m)

omit [DecidableEq α] in
/-- Two rings with a common node are one ring. -/
theorem Rings.eq_of_mem {h : RingHeap α} {rings : α → Option (List α)} (hr : Rings h rings)
    {a b x : α} {l m : List α} (ha : rings a = some l) (hb : rings b = some m)
    (hxa : x ∈ a :: l) (hxb : x ∈ b :: m) : a = b :=
  by_contra fun hne => hr.disjoint a l b m ha hb hne hxa hxb

omit [DecidableEq α] in
theorem IsRing.congr {h h' : RingHeap α} {head : α} {l : List α} (hr : IsRing h head l)
    (heq : ∀ b ∈ head :: l, h' b = h b) : IsRing h' head l := by
  refine ⟨hr.seg.congr (fun b hb => by rw [heq b hb]) fun b hb => ?_, hr.nodup⟩
  rw [heq b (by simpa [or_comm] using hb)]

/-- What a legal operation does to the ring at which it works, and to the memory outside. -/
structure RingOp.Works (h h' : RingHeap α) (op : RingOp α) (head : α) (l : List α) : Prop where
  isRing : IsRing h' head (op.onList head l)
  frame : ∀ b, b ∉ head :: l → b ≠ op.entry → h' b = h b
  nodes : ∀ b ∈ op.onList head l, b ∈ l ∨ b = op.entry
  links : op = .detach op.entry → h' op.entry = ⟨none, none⟩

/-- A legal operation runs, on the ring that has its place. -/
theorem Rings.run_works {h : RingHeap α} {rings : α → Option (List α)} (hr : Rings h rings)
    {op : RingOp α} (hop : op.Legal rings) :
    ∃ head l h', rings head = some l ∧ op.place ∈ head :: l ∧ op.run h = some h' ∧
      op.Works h h' head l := by
  cases op with
  | prepend ring entry =>
    obtain ⟨⟨head, l, hhead, hring⟩, hfree⟩ := hop
    have hl := hr.isRing head l hhead
    have hne := hfree head l hhead
    obtain ⟨h', heq, hl'⟩ := hl.ringPrepend_insertBefore hring hne
    exact ⟨head, l, h', hhead, hring, heq, hl', fun b => hl.ringPrepend_frame hring hne heq,
      fun b => mem_insertBefore, fun he => by simp at he⟩
  | append ring entry =>
    obtain ⟨⟨head, l, hhead, hring⟩, hfree⟩ := hop
    have hl := hr.isRing head l hhead
    have hne := hfree head l hhead
    obtain ⟨h', heq, hl'⟩ := hl.ringAppend_insertAfter hring hne
    exact ⟨head, l, h', hhead, hring, heq, hl', fun b => hl.ringAppend_frame hring hne heq,
      fun b => mem_insertAfter, fun he => by simp at he⟩
  | detach entry =>
    obtain ⟨head, l, hhead, hent⟩ := hop
    have hl := hr.isRing head l hhead
    obtain ⟨l₁, l₂, rfl, hl₁⟩ := List.eq_append_cons_of_mem hent
    obtain ⟨h', heq, hl'⟩ := hl.ringDetach
    have hmem := List.mem_cons_of_mem head hent
    obtain ⟨hframe, hlinks⟩ := hl.ringDetach_frame hmem heq
    refine ⟨head, _, h', hhead, hmem, heq, ?_, fun b hb _ => hframe b hb, fun b hb => ?_,
      fun _ => hlinks⟩
    · rwa [RingOp.onList, List.erase_append_right _ hl₁, List.erase_cons_head]
    · exact Or.inl (List.mem_of_mem_erase hb)

theorem RingOp.onRings_of_not_place {rings : α → Option (List α)} {op : RingOp α} {head : α}
    {l : List α} (hl : rings head = some l) (hmem : op.place ∉ head :: l) :
    onRings rings op head = some l := by
  rw [onRings, hl, Option.map_some, if_neg hmem]

/-- A ring after an operation was a ring before it, with its list changed only if the
operation works at it. -/
theorem RingOp.of_onRings {rings : α → Option (List α)} {op : RingOp α} {head : α}
    {m : List α} (hm : onRings rings op head = some m) :
    ∃ l, rings head = some l ∧ (op.place ∈ head :: l ∧ m = op.onList head l ∨
      op.place ∉ head :: l ∧ m = l) := by
  obtain ⟨l, hl, rfl⟩ := Option.map_eq_some_iff.1 hm
  refine ⟨l, hl, ?_⟩
  by_cases hmem : op.place ∈ head :: l
  · exact Or.inl ⟨hmem, if_pos hmem⟩
  · exact Or.inr ⟨hmem, if_neg hmem⟩

/-- A node of a ring after a legal operation was a node of the ring, or is the entry, which
was in no other ring. -/
theorem RingOp.mem_of_onRings {h : RingHeap α} {rings : α → Option (List α)}
    (hr : Rings h rings) {op : RingOp α} (hop : op.Legal rings) {head b : α} {m : List α}
    (hm : onRings rings op head = some m) (hb : b ∈ head :: m) :
    ∃ l, rings head = some l ∧ (b ∈ head :: l ∨
      b = op.entry ∧ op.place ∈ head :: l ∧
        ∀ a l', rings a = some l' → b ∈ a :: l' → a = head) := by
  obtain ⟨l, hl, ⟨hmem, rfl⟩ | ⟨-, rfl⟩⟩ := of_onRings hm
  · refine ⟨l, hl, ?_⟩
    obtain ⟨a, l', h', ha, hplace, -, hw⟩ := hr.run_works hop
    obtain rfl := hr.eq_of_mem ha hl hplace hmem
    obtain rfl := Option.some.inj (ha.symm.trans hl)
    rcases List.mem_cons.1 hb with rfl | hb
    · exact Or.inl (by simp)
    rcases hw.nodes b hb with hb | rfl
    · exact Or.inl (List.mem_cons_of_mem _ hb)
    · refine Or.inr ⟨rfl, hmem, fun c l' hc hin => ?_⟩
      cases op with
      | prepend ring entry => exact absurd hin (hop.2 c l' hc)
      | append ring entry => exact absurd hin (hop.2 c l' hc)
      | detach entry => exact hr.eq_of_mem hc hl hin hmem
  · exact ⟨m, hl, Or.inl hb⟩

/-- A legal operation on the heap is the operation on the lists. -/
theorem Rings.run {h : RingHeap α} {rings : α → Option (List α)} (hr : Rings h rings)
    {op : RingOp α} (hop : op.Legal rings) :
    ∃ h', op.run h = some h' ∧ Rings h' (RingOp.onRings rings op) := by
  obtain ⟨head, l, h', hhead, hplace, heq, hw⟩ := hr.run_works hop
  refine ⟨h', heq, fun a m hm => ?_, fun a m b m' hm hm' hne => ?_⟩
  · obtain ⟨l', hl', ⟨hmem, rfl⟩ | ⟨hmem, rfl⟩⟩ := RingOp.of_onRings hm
    · obtain rfl := hr.eq_of_mem hhead hl' hplace hmem
      obtain rfl := Option.some.inj (hhead.symm.trans hl')
      exact hw.isRing
    -- another ring shares no node with the one written, and does not have the entry
    · refine (hr.isRing a m hl').congr fun b hb => hw.frame b (fun hbl => ?_) fun he => ?_
      · obtain rfl := hr.eq_of_mem hhead hl' hbl hb
        obtain rfl := Option.some.inj (hhead.symm.trans hl')
        exact hmem hplace
      · subst he
        cases op with
        | prepend ring entry => exact hop.2 a m hl' hb
        | append ring entry => exact hop.2 a m hl' hb
        | detach entry => exact hmem hb
  · intro b' hb hb'
    obtain ⟨l₁, hl₁, h₁⟩ := RingOp.mem_of_onRings hr hop hm hb
    obtain ⟨l₂, hl₂, h₂⟩ := RingOp.mem_of_onRings hr hop hm' hb'
    rcases h₁ with h₁ | ⟨-, hp₁, hall₁⟩ <;> rcases h₂ with h₂ | ⟨-, hp₂, hall₂⟩
    · exact hne (hr.eq_of_mem hl₁ hl₂ h₁ h₂)
    · exact hne (hall₂ a l₁ hl₁ h₁)
    · exact hne (hall₁ b l₂ hl₂ h₂).symm
    · exact hne (hr.eq_of_mem hl₁ hl₂ hp₁ hp₂)

/-- Every operation of the sequence is legal when its turn comes. -/
def LegalRun : (α → Option (List α)) → List (RingOp α) → Prop
  | _, [] => True
  | rings, op :: ops => op.Legal rings ∧ LegalRun (op.onRings rings) ops

instance decidableLegalRun [Fintype α] : ∀ (ops : List (RingOp α))
    (rings : α → Option (List α)), Decidable (LegalRun rings ops)
  | [], _ => inferInstanceAs (Decidable True)
  | op :: ops, rings =>
    have := decidableLegalRun ops (op.onRings rings)
    inferInstanceAs (Decidable (op.Legal rings ∧ LegalRun (op.onRings rings) ops))

/-- A legal sequence runs through, and the heap holds the lists it makes. -/
theorem Rings.foldlM {ops : List (RingOp α)} : ∀ {h : RingHeap α} {rings : α → Option (List α)},
    Rings h rings → LegalRun rings ops →
    ∃ h', ops.foldlM RingOp.run h = some h' ∧ Rings h' (ops.foldl RingOp.onRings rings) := by
  induction ops with
  | nil => exact fun {h _} hr _ => ⟨h, rfl, hr⟩
  | cons op ops ih =>
    intro h rings hr hok
    obtain ⟨h₁, heq, hr₁⟩ := hr.run hok.1
    obtain ⟨h', heq', hr'⟩ := ih hr₁ hok.2
    exact ⟨h', by rw [List.foldlM_cons, heq]; exact heq', hr'⟩

/-- A node that no operation inserts or detaches, and whose ring, if it is in one, no
operation works at, keeps its links. -/
theorem Rings.foldlM_frame {b : α} {ops : List (RingOp α)} :
    ∀ {h h' : RingHeap α} {rings : α → Option (List α)}, Rings h rings → LegalRun rings ops →
    ops.foldlM RingOp.run h = some h' → (∀ op ∈ ops, op.entry ≠ b) →
    (∀ head l, rings head = some l → b ∈ head :: l → ∀ op ∈ ops, op.place ∉ head :: l) →
    h' b = h b := by
  induction ops with
  | nil =>
    intro h h' _ _ _ heq _ _
    rw [← Option.some.inj heq]
  | cons op ops ih =>
    intro h h' rings hr hok heq hent hplace
    obtain ⟨head, l, h₁, hhead, hmem, heq₁, hw⟩ := hr.run_works hok.1
    obtain ⟨h₁', heq₁', hr₁⟩ := hr.run hok.1
    obtain rfl := Option.some.inj (heq₁.symm.trans heq₁')
    rw [List.foldlM_cons, heq₁] at heq
    have hb : h₁ b = h b := hw.frame b
      (fun hbl => hplace head l hhead hbl op (by simp) hmem) (hent op (by simp)).symm
    rw [← hb]
    refine ih hr₁ hok.2 heq (fun op' hop' => hent op' (by simp [hop'])) ?_
    intro a m hm hbm op' hop'
    obtain ⟨l', hl', h₁ | ⟨h₁, -⟩⟩ := RingOp.mem_of_onRings hr hok.1 hm hbm
    · have hnot := hplace a l' hl' h₁
      rw [RingOp.onRings_of_not_place hl' (hnot op (by simp))] at hm
      obtain rfl := Option.some.inj hm
      exact hnot op' (by simp [hop'])
    · exact absurd h₁.symm (hent op (by simp))

/-- A ring at which no operation works keeps its list, and no operation takes a node of it. -/
theorem LegalRun.other {head : α} {l : List α} {ops : List (RingOp α)} :
    ∀ {rings : α → Option (List α)}, LegalRun rings ops → rings head = some l →
    (∀ op ∈ ops, op.place ∉ head :: l) →
    ops.foldl RingOp.onRings rings head = some l ∧ ∀ op ∈ ops, op.entry ∉ head :: l := by
  induction ops with
  | nil => exact fun _ hl _ => ⟨hl, by simp⟩
  | cons op ops ih =>
    intro rings hok hl hplace
    have hop : op.entry ∉ head :: l := by
      cases op with
      | prepend ring entry => exact hok.1.2 head l hl
      | append ring entry => exact hok.1.2 head l hl
      | detach entry => exact hplace (.detach entry) (by simp)
    obtain ⟨hfold, hent⟩ := ih hok.2 (RingOp.onRings_of_not_place hl (hplace op (by simp)))
      fun op' hop' => hplace op' (by simp [hop'])
    exact ⟨hfold, List.forall_mem_cons.2 ⟨hop, hent⟩⟩

/-- A node that was detached, and not inserted again, has null links. -/
theorem Rings.foldlM_detached {h h' : RingHeap α} {rings : α → Option (List α)}
    (hr : Rings h rings) {e : α} {pre post : List (RingOp α)}
    (hok : LegalRun rings (pre ++ .detach e :: post))
    (heq : (pre ++ .detach e :: post).foldlM RingOp.run h = some h')
    (hpost : ∀ op ∈ post, op.entry ≠ e) : h' e = ⟨none, none⟩ := by
  induction pre generalizing h rings with
  | nil =>
    obtain ⟨head, l, h₁, hhead, hmem, heq₁, hw⟩ := hr.run_works hok.1
    obtain ⟨h₁', heq₁', hr₁⟩ := hr.run hok.1
    obtain rfl := Option.some.inj (heq₁.symm.trans heq₁')
    rw [List.nil_append, List.foldlM_cons, heq₁] at heq
    rw [← hw.links rfl]
    refine hr₁.foldlM_frame hok.2 heq hpost fun a m hm hem => ?_
    -- the node is in no ring any more
    obtain ⟨l', hl', ⟨hin, rfl⟩ | ⟨hout, rfl⟩⟩ := RingOp.of_onRings hm
    · obtain ⟨b, l, hb, hel⟩ := hok.1
      have hnd := (hr.isRing b l hb).nodup
      obtain rfl := hr.eq_of_mem hb hl' (List.mem_cons_of_mem _ hel) hin
      obtain rfl := Option.some.inj (hb.symm.trans hl')
      rcases List.mem_cons.1 hem with rfl | hem
      · exact absurd hel (List.nodup_cons.1 hnd).1
      · exact absurd hem (List.nodup_cons.1 hnd).2.not_mem_erase
    · exact absurd hem hout
  | cons op pre ih =>
    obtain ⟨h₁, heq₁, hr₁⟩ := hr.run hok.1
    rw [List.cons_append, List.foldlM_cons, heq₁] at heq
    exact ih hr₁ hok.2 heq

/-- Ring operations refine list operations, over every legal sequence of them. -/
theorem rings_refine {h : RingHeap α} {rings : α → Option (List α)} (hr : Rings h rings)
    {ops : List (RingOp α)} (hok : LegalRun rings ops) :
    ∃ h', ops.foldlM RingOp.run h = some h' ∧
      Rings h' (ops.foldl RingOp.onRings rings) ∧
      (∀ head l, ops.foldl RingOp.onRings rings head = some l → ∀ turns > l.length,
        ringWalk Ring.succ h' head turns (h' head).succ = some l ∧
          ringWalk Ring.pred h' head turns (h' head).pred = some l.reverse) ∧
      (∀ head l, rings head = some l → (∀ op ∈ ops, op.place ∉ head :: l) →
        ops.foldl RingOp.onRings rings head = some l ∧ ∀ b ∈ head :: l, h' b = h b) ∧
      ∀ e pre post, ops = pre ++ .detach e :: post → (∀ op ∈ post, op.entry ≠ e) →
        h' e = ⟨none, none⟩ := by
  obtain ⟨h', heq, hr'⟩ := hr.foldlM hok
  refine ⟨h', heq, hr', fun head l hl turns hlen => ?_, fun head l hl hplace => ?_, ?_⟩
  · have hring := hr'.isRing head l hl
    exact ⟨hring.ringWalk_succ hlen, hring.ringWalk_pred hlen⟩
  · obtain ⟨hfold, hent⟩ := hok.other hl hplace
    refine ⟨hfold, fun b hb => hr.foldlM_frame hok heq (fun op hop he => ?_) ?_⟩
    · exact hent op hop (he ▸ hb)
    · intro a m hm hbm
      obtain rfl := hr.eq_of_mem hl hm hb hbm
      obtain rfl := Option.some.inj (hl.symm.trans hm)
      exact hplace
  · rintro e pre post rfl hpost
    exact hr.foldlM_detached hok heq hpost

/-- Two rings without nodes : a node goes behind one head, another before it, and the first
comes out again. The other ring is not touched. -/
theorem rings_refine_from_empty :
    LegalRun (fun head : Fin 5 => if head = 0 ∨ head = 4 then some [] else none)
      [.append 0 1, .prepend 0 2, .append 1 3, .detach 1] ∧
    ∃ h', [.append 0 1, .prepend 0 2, .append 1 3, .detach 1].foldlM RingOp.run
        (ringInit 4 (ringInit 0 fun _ : Fin 5 => ⟨none, none⟩)) = some h' ∧
      IsRing h' 0 [3, 2] ∧ IsRing h' 4 [] ∧ h' 1 = ⟨none, none⟩ := by
  have hok : LegalRun (fun head : Fin 5 => if head = 0 ∨ head = 4 then some [] else none)
      [.append 0 1, .prepend 0 2, .append 1 3, .detach 1] := by decide
  have hr : Rings (ringInit 4 (ringInit 0 fun _ : Fin 5 => ⟨none, none⟩))
      (fun head => if head = 0 ∨ head = 4 then some [] else none) := by
    refine ⟨fun head l hl => ?_, fun a l b m ha hb hne => ?_⟩
    · obtain ⟨hhead, hl⟩ := Option.ite_none_right_eq_some.1 hl
      obtain rfl := Option.some.inj hl
      refine ⟨?_, by simp⟩
      rcases hhead with rfl | rfl <;> simp [Seg, ringInit]
    · obtain rfl := Option.some.inj (Option.ite_none_right_eq_some.1 ha).2
      obtain rfl := Option.some.inj (Option.ite_none_right_eq_some.1 hb).2
      simpa using hne.symm
  obtain ⟨h', heq, hr', -, -, hlinks⟩ := rings_refine hr hok
  refine ⟨hok, h', heq, hr'.isRing 0 [3, 2] (by decide), hr'.isRing 4 [] (by decide), ?_⟩
  exact hlinks 1 [.append 0 1, .prepend 0 2, .append 1 3] [] rfl (by simp)

end Nowra
