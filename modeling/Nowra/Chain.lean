import Mathlib.Logic.Function.Basic
import Mathlib.Data.List.Nodup

/-!
# Doubly linked chains

A node has a successor and a predecessor pointer, null being `none`, and a content that the links
do not touch. Memory holds a node at some of the addresses.

A chain (`Chain`) is a path that starts behind a predecessor and ends in front of a successor,
with every link in both directions. `Chain.push` puts a node in front, `Chain.unlink` takes one
out, wherever it is. Where only the successors are known to be right, a path is `Linked`.
-/

namespace Nowra

variable {β : Type*}

/-- A node with a successor and a predecessor. -/
structure ChainNode (β : Type*) where
  content : β
  next : Option ℕ
  prev : Option ℕ

/-- The node at each address, if there is one. -/
abbrev ChainMem (β : Type*) := ℕ → Option (ChainNode β)

namespace ChainMem

variable {mem : ChainMem β} {a b : ℕ} {v : Option ℕ}

/-- `node->next = v`. -/
def setNext (mem : ChainMem β) (a : ℕ) (v : Option ℕ) : ChainMem β :=
  Function.update mem a ((mem a).map fun node => { node with next := v })

/-- `node->prev = v`. -/
def setPrev (mem : ChainMem β) (a : ℕ) (v : Option ℕ) : ChainMem β :=
  Function.update mem a ((mem a).map fun node => { node with prev := v })

/-- `node->prev = p` where there is a node. -/
def setPrevOf (mem : ChainMem β) (n p : Option ℕ) : ChainMem β :=
  n.elim mem fun b => mem.setPrev b p

/-- Take a node out of the links of both its neighbours. -/
def unlink (mem : ChainMem β) (n p : Option ℕ) : ChainMem β :=
  p.elim (mem.setPrevOf n p) fun b => (mem.setPrevOf n p).setNext b n

theorem setNext_of_ne (h : b ≠ a) : mem.setNext a v b = mem b :=
  Function.update_of_ne h _ _

theorem setPrev_of_ne (h : b ≠ a) : mem.setPrev a v b = mem b :=
  Function.update_of_ne h _ _

theorem setPrevOf_of_ne {n : Option ℕ} (h : ∀ a ∈ n, b ≠ a) : mem.setPrevOf n v b = mem b := by
  cases n with
  | none => rfl
  | some a => exact setPrev_of_ne (h a rfl)

theorem unlink_of_ne {n p : Option ℕ} (hn : ∀ a ∈ n, b ≠ a) (hp : ∀ a ∈ p, b ≠ a) :
    mem.unlink n p b = mem b := by
  cases p with
  | none => exact setPrevOf_of_ne hn
  | some a => exact (setNext_of_ne (hp a rfl)).trans (setPrevOf_of_ne hn)

theorem setNext_self {node : ChainNode β} (h : mem a = some node) :
    mem.setNext a v a = some { node with next := v } := by
  rw [setNext, Function.update_self, h, Option.map_some]

theorem setPrev_self {node : ChainNode β} (h : mem a = some node) :
    mem.setPrev a v a = some { node with prev := v } := by
  rw [setPrev, Function.update_self, h, Option.map_some]

end ChainMem

/-- The addresses of a list of nodes. -/
abbrev addrs (l : List (ℕ × β)) : List ℕ := l.map Prod.fst

/-- The last address, or the predecessor of an empty list. -/
def lastAddr (p : Option ℕ) : List (ℕ × β) → Option ℕ
  | [] => p
  | (a, _) :: l => lastAddr (some a) l

/-- From `s` through the nodes `l` to `e`. The node before `s` is `p`. -/
def Chain (mem : ChainMem β) (p s : Option ℕ) : List (ℕ × β) → Option ℕ → Prop
  | [], e => s = e
  | (a, c) :: l, e => s = some a ∧ ∃ n, mem a = some ⟨c, n, p⟩ ∧ Chain mem (some a) n l e

/-- From `s` through the nodes `l` to the null pointer, along the successors alone. -/
def Linked (mem : ChainMem β) (s : Option ℕ) : List (ℕ × β) → Prop
  | [] => s = none
  | (a, c) :: l => s = some a ∧ ∃ n p, mem a = some ⟨c, n, p⟩ ∧ Linked mem n l

variable {mem mem' : ChainMem β} {p s e : Option ℕ} {a : ℕ} {c : β} {l l₁ l₂ : List (ℕ × β)}

theorem lastAddr_append_singleton : lastAddr p (l ++ [(a, c)]) = some a := by
  induction l generalizing p with
  | nil => rfl
  | cons x l ih => exact ih

/-- The end of a list of nodes is its predecessor if and only if it is empty. -/
theorem lastAddr_none_iff : lastAddr none l = none ↔ l = [] := by
  rcases List.eq_nil_or_concat' l with rfl | ⟨l', ⟨b, d⟩, rfl⟩
  · exact iff_of_true rfl rfl
  · simp [lastAddr_append_singleton]

theorem lastAddr_mem (h : lastAddr none l = some a) : a ∈ addrs l := by
  rcases List.eq_nil_or_concat' l with rfl | ⟨l', ⟨b, d⟩, rfl⟩
  · cases h
  · rw [lastAddr_append_singleton] at h
    obtain rfl := Option.some.inj h
    simp

theorem chain_append : Chain mem p s (l₁ ++ l₂) e ↔
    ∃ m, Chain mem p s l₁ m ∧ Chain mem (lastAddr p l₁) m l₂ e := by
  induction l₁ generalizing p s with
  | nil => simp [Chain, lastAddr]
  | cons x l₁ ih =>
    simp only [List.cons_append, Chain, ih, lastAddr]
    constructor
    · rintro ⟨rfl, n, hx, m, h₁, h₂⟩
      exact ⟨m, ⟨rfl, n, hx, h₁⟩, h₂⟩
    · rintro ⟨m, ⟨rfl, n, hx, h₁⟩, h₂⟩
      exact ⟨rfl, n, hx, m, h₁, h₂⟩

/-- A chain reads its own nodes only. -/
theorem Chain.congr (h : Chain mem p s l e) (heq : ∀ a ∈ addrs l, mem' a = mem a) :
    Chain mem' p s l e := by
  induction l generalizing p s with
  | nil => exact h
  | cons x l ih =>
    obtain ⟨rfl, n, hx, h⟩ := h
    refine ⟨rfl, n, ?_, ih h fun a ha => heq a (List.mem_cons_of_mem _ ha)⟩
    rw [heq _ (List.mem_cons_self ..), hx]

theorem Linked.congr (h : Linked mem s l) (heq : ∀ a ∈ addrs l, mem' a = mem a) :
    Linked mem' s l := by
  induction l generalizing s with
  | nil => exact h
  | cons x l ih =>
    obtain ⟨rfl, n, p, hx, h⟩ := h
    refine ⟨rfl, n, p, ?_, ih h fun a ha => heq a (List.mem_cons_of_mem _ ha)⟩
    rw [heq _ (List.mem_cons_self ..), hx]

theorem Chain.linked (h : Chain mem p s l none) : Linked mem s l := by
  induction l generalizing p s with
  | nil => exact h
  | cons x l ih =>
    obtain ⟨rfl, n, hx, h⟩ := h
    exact ⟨rfl, n, p, hx, ih h⟩

/-- A node of a chain is in memory. -/
theorem Chain.node (h : Chain mem p s l e) (ha : (a, c) ∈ l) :
    ∃ n q, mem a = some ⟨c, n, q⟩ := by
  induction l generalizing p s with
  | nil => cases ha
  | cons x l ih =>
    obtain ⟨rfl, n, hx, h⟩ := h
    rcases List.mem_cons.1 ha with rfl | ha
    · exact ⟨n, p, hx⟩
    · exact ih h ha

/-- A path that starts at the null pointer is over. -/
theorem Chain.eq_nil (h : Chain mem p none l none) : l = [] := by
  cases l with
  | nil => rfl
  | cons x l => exact absurd h.1 nofun

theorem Chain.start_mem (h : Chain mem p (some a) l none) : a ∈ addrs l := by
  cases l with
  | nil => cases h
  | cons x l =>
    obtain rfl : a = x.1 := Option.some.inj h.1
    exact List.mem_cons_self ..

/-- The first node gets another predecessor. -/
theorem Chain.setPrev (h : Chain mem p (some a) l none) (hnd : (addrs l).Nodup) (q : Option ℕ) :
    Chain (mem.setPrev a q) q (some a) l none := by
  cases l with
  | nil => cases h
  | cons x l =>
    obtain ⟨hx, n, hnode, h⟩ := h
    obtain rfl : a = x.1 := Option.some.inj hx
    refine ⟨rfl, n, ChainMem.setPrev_self hnode, h.congr fun b hb => ?_⟩
    refine ChainMem.setPrev_of_ne ?_
    rintro rfl
    exact (List.nodup_cons.1 hnd).1 hb

/-- The last node gets another successor. -/
theorem Chain.setNext (h : Chain mem p s (l ++ [(a, c)]) e) (hnd : (addrs (l ++ [(a, c)])).Nodup)
    (n : Option ℕ) : Chain (mem.setNext a n) p s (l ++ [(a, c)]) n := by
  obtain ⟨m, hl, rfl, n', hnode, -⟩ := chain_append.1 h
  refine chain_append.2 ⟨some a, hl.congr fun b hb => ?_, rfl, n, ChainMem.setNext_self hnode, rfl⟩
  refine ChainMem.setNext_of_ne ?_
  rintro rfl
  rw [addrs, List.map_append, List.nodup_append] at hnd
  exact hnd.2.2 b hb b (by simp) rfl

/-- A new node goes in front. -/
theorem Chain.push (h : Chain mem none s l none) (hnd : (addrs l).Nodup) (ha : a ∉ addrs l)
    (hnode : mem a = some ⟨c, s, none⟩) :
    Chain (mem.setPrevOf s (some a)) none (some a) ((a, c) :: l) none := by
  cases s with
  | none =>
    obtain rfl := h.eq_nil
    exact ⟨rfl, none, hnode, rfl⟩
  | some b =>
    refine ⟨rfl, some b, ?_, h.setPrev hnd (some a)⟩
    refine (ChainMem.setPrev_of_ne ?_).trans hnode
    rintro rfl
    exact ha h.start_mem

/-- A node is taken out. -/
theorem Chain.unlink (h : Chain mem none s (l₁ ++ (a, c) :: l₂) none)
    (hnd : (addrs (l₁ ++ (a, c) :: l₂)).Nodup) :
    ∃ n, mem a = some ⟨c, n, lastAddr none l₁⟩ ∧ (∀ b ∈ n, b ∈ addrs l₂) ∧
      Chain (mem.unlink n (lastAddr none l₁)) none (if l₁ = [] then n else s) (l₁ ++ l₂) none := by
  obtain ⟨m, h₁, rfl, n, hnode, h₂⟩ := chain_append.1 h
  have hmem : ∀ b ∈ n, b ∈ addrs l₂ := by
    rintro b rfl
    exact h₂.start_mem
  rw [addrs, List.map_append, List.map_cons, List.nodup_append, List.nodup_cons] at hnd
  obtain ⟨hnd₁, ⟨-, hnd₂⟩, hdis⟩ := hnd
  -- the successor gets the predecessor
  have h₂' : Chain (mem.setPrevOf n (lastAddr none l₁)) (lastAddr none l₁) n l₂ none := by
    cases n with
    | none =>
      obtain rfl := h₂.eq_nil
      rfl
    | some b => exact h₂.setPrev hnd₂ _
  have h₁' : Chain (mem.setPrevOf n (lastAddr none l₁)) none s l₁ (some a) := by
    refine h₁.congr fun b hb => ?_
    refine ChainMem.setPrevOf_of_ne ?_
    rintro x hx rfl
    exact hdis b hb b (List.mem_cons_of_mem _ (hmem b hx)) rfl
  refine ⟨n, hnode, hmem, ?_⟩
  -- the predecessor, if there is one, gets the successor
  rcases List.eq_nil_or_concat' l₁ with rfl | ⟨l, ⟨b, d⟩, rfl⟩
  · exact h₂'
  · rw [if_neg (List.append_ne_nil_of_right_ne_nil _ (List.cons_ne_nil _ _))]
    simp only [lastAddr_append_singleton] at h₁' h₂' ⊢
    refine chain_append.2 ⟨n, h₁'.setNext hnd₁ n, ?_⟩
    rw [lastAddr_append_singleton]
    refine h₂'.congr fun x hx => ChainMem.setNext_of_ne ?_
    rintro rfl
    exact hdis x (by simp) x (List.mem_cons_of_mem _ hx) rfl

end Nowra
