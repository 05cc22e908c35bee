import Mathlib.Data.List.Nodup
import Mathlib.Logic.Function.Basic

/-!
# Singly linked lists with a cursor

A list is a head and a `next` link for each node, null being `none`. A cursor is a place that holds
a link, the head or the `next` of a node, so that a node can be taken out without its predecessor
(`Links.set` at the cursor).

`Links.Holds` relates the links to the list of their nodes. A node is pushed in front
(`Links.Holds.push`), and the cursor moves over a node or takes it out, wherever it is
(`Links.Holds.get`, `Links.Holds.unlink`).
-/

namespace Nowra

/-- The head of a list, and the links of its nodes. -/
structure Links (α : Type*) where
  head : Option α
  next : α → Option α

/-- A place that holds a link. -/
inductive LinkPlace (α : Type*)
  | head
  | next (a : α)

namespace Links

variable {α : Type*} [DecidableEq α]

omit [DecidableEq α] in
/-- The link at a place. -/
def get (l : Links α) : LinkPlace α → Option α
  | .head => l.head
  | .next a => l.next a

/-- Store a link. -/
def set (l : Links α) (link : Option α) : LinkPlace α → Links α
  | .head => { l with head := link }
  | .next a => { l with next := Function.update l.next a link }

/-- Put a node in front. -/
def push (l : Links α) (a : α) : Links α :=
  { head := some a, next := Function.update l.next a l.head }

omit [DecidableEq α] in
/-- The place behind the nodes. -/
def placeAfter (as : List α) : LinkPlace α := as.getLast?.elim .head .next

omit [DecidableEq α] in
/-- The links from `link` on lead through the nodes, and end there. -/
def Chain (l : Links α) : Option α → List α → Prop
  | link, [] => link = none
  | link, a :: as => link = some a ∧ l.Chain (l.next a) as

omit [DecidableEq α] in
/-- The links from `link` on lead through the nodes. -/
def Path (l : Links α) : Option α → List α → Prop
  | _, [] => True
  | link, a :: as => link = some a ∧ l.Path (l.next a) as

omit [DecidableEq α] in
/-- The list has these nodes, in this order. -/
def Holds (l : Links α) (as : List α) : Prop := l.Chain l.head as

variable {l l' : Links α} {link : Option α} {a : α} {as bs : List α}

omit [DecidableEq α] in
/-- The nodes in front are passed, and the others come behind the last of them. -/
theorem chain_append (bs : List α) : ∀ (as : List α) (link : Option α), l.Chain link (as ++ bs) ↔
    l.Path link as ∧ l.Chain (as.getLast?.elim link l.next) bs
  | [], _ => by simp [Path]
  | [a], _ => by simp [Chain, Path]
  | a :: b :: as, link => by
    have ih := chain_append bs (b :: as) (l.next a)
    simp only [List.cons_append, Chain, Path] at ih ⊢
    rw [ih, List.getLast?_cons_cons, List.getLast?_cons]
    simp only [Option.elim_some, and_assoc]

omit [DecidableEq α] in
theorem holds_append : l.Holds (as ++ bs) ↔
    l.Path l.head as ∧ l.Chain (l.get (placeAfter as)) bs := by
  have hget : l.get (placeAfter as) = as.getLast?.elim l.head l.next := by
    unfold placeAfter
    cases as.getLast? <;> rfl
  rw [Holds, chain_append, hget]

omit [DecidableEq α] in
/-- The links that are read are those of the nodes. -/
theorem Chain.congr : ∀ {as : List α} {link : Option α}, l.Chain link as →
    (∀ a ∈ as, l'.next a = l.next a) → l'.Chain link as
  | [], _, h, _ => h
  | a :: as, _, ⟨hlink, h⟩, hnext => by
    refine ⟨hlink, ?_⟩
    rw [hnext a (by simp)]
    exact h.congr fun b hb => hnext b (by simp [hb])

omit [DecidableEq α] in
/-- A path does not read the link of its last node. -/
theorem Path.congr : ∀ {as : List α} {link : Option α}, l.Path link as →
    (∀ a ∈ as.dropLast, l'.next a = l.next a) → l'.Path link as
  | [], _, h, _ => h
  | [_], _, h, _ => h
  | a :: b :: as, _, ⟨hlink, h⟩, hnext => by
    refine ⟨hlink, ?_⟩
    rw [hnext a (by simp)]
    exact h.congr fun c hc => hnext c (by simp [hc])

omit [DecidableEq α] in
theorem Holds.get (h : l.Holds (as ++ a :: bs)) : l.get (placeAfter as) = some a :=
  (holds_append.1 h).2.1

omit [DecidableEq α] in
theorem Holds.get_end (h : l.Holds as) : l.get (placeAfter as) = none := by
  rw [← List.append_nil as] at h
  exact (holds_append.1 h).2

omit [DecidableEq α] in
/-- The cursor behind a node is its link. -/
theorem placeAfter_snoc (as : List α) (a : α) : placeAfter (as ++ [a]) = .next a := by
  simp [placeAfter]

omit [DecidableEq α] in
theorem placeAfter_of_next (h : placeAfter as = .next a) : ∃ pre, as = pre ++ [a] := by
  rcases List.eq_nil_or_concat as with rfl | ⟨pre, b, rfl⟩
  · cases h
  · rw [List.concat_eq_append, placeAfter_snoc] at h
    obtain rfl := LinkPlace.next.inj h
    exact ⟨pre, List.concat_eq_append⟩

/-- A node is put in front of the others. -/
theorem Holds.push (h : l.Holds as) (ha : a ∉ as) : (l.push a).Holds (a :: as) := by
  refine ⟨rfl, ?_⟩
  have hnext : (l.push a).next a = l.head := Function.update_self _ _ _
  rw [hnext]
  exact h.congr fun b hb => Function.update_of_ne (ne_of_mem_of_not_mem hb ha) _ _

/-- The node at the cursor is taken out. -/
theorem Holds.unlink (h : l.Holds (as ++ a :: bs)) (hnd : (as ++ a :: bs).Nodup) :
    (l.set (l.next a) (placeAfter as)).Holds (as ++ bs) := by
  obtain ⟨hpath, -, hrest⟩ := holds_append.1 h
  rw [holds_append]
  cases hplace : placeAfter as with
  | head =>
    have hnil : as = [] := by
      rcases List.eq_nil_or_concat as with rfl | ⟨pre, b, rfl⟩
      · rfl
      · rw [List.concat_eq_append, placeAfter_snoc] at hplace
        cases hplace
    rw [hnil]
    exact ⟨trivial, hrest.congr fun _ _ => rfl⟩
  | next b =>
    obtain ⟨pre, rfl⟩ := placeAfter_of_next hplace
    have hset : ∀ c, c ≠ b → (l.set (l.next a) (.next b)).next c = l.next c := fun c hc =>
      Function.update_of_ne hc _ _
    rw [List.append_assoc, List.nodup_append] at hnd
    obtain ⟨hpre, hsuf, hdisj⟩ := hnd
    refine ⟨hpath.congr fun c hc => hset c ?_, ?_⟩
    · rw [List.dropLast_concat] at hc
      exact hdisj c hc b (by simp)
    · have hself : (l.set (l.next a) (.next b)).get (.next b) = l.next a :=
        Function.update_self _ _ _
      rw [hself]
      refine hrest.congr fun c hc => hset c ?_
      rintro rfl
      simp only [List.singleton_append, List.nodup_cons, List.mem_cons, not_or] at hsuf
      exact hsuf.1.2 hc

end Links

end Nowra
