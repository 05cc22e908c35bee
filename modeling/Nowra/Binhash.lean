import Mathlib.Data.List.Nodup
import Mathlib.Data.List.Perm.Basic
import Nowra.Msg

/-!
# The hash table

`binhash.c` : a table of chains that doubles when it is full. A chain is a list, head first.
Sizes are natural numbers. The code keeps them in an `int`, which the number of processes a
kernel allows stays far below.

A table is well formed if each entry sits in the chain its key hashes to and `used` counts the
entries (`Binhash.Wf`). What the operations do to the entries is stated up to their order :
`binhashEnter_perm` and `binhashDelete_perm`, and `binhashFind_eq_some` reads one entry.
-/

namespace Nowra

variable {α : Type}

/-- An entry, with a copy of the bytes of its key. -/
structure BinhashInfo (α : Type) where
  key : List (BitVec 8)
  value : α

/-- A table, as many chains as its size. -/
structure Binhash (α : Type) where
  size : ℕ
  used : ℕ
  data : List (List (BinhashInfo α))

/-- One turn of the loop of `binhash_hash`, on `unsigned long` and a signed `char`. -/
def binhashHashStep (h : BitVec 64) (c : BitVec 8) : BitVec 64 :=
  let h := (h <<< 4) + c.signExtend 64
  let g := h &&& 0xf0000000#64
  if g ≠ 0 then (h ^^^ (g >>> 24)) ^^^ g else h

/-- Hash a key. -/
def binhashHash (key : List (BitVec 8)) (size : ℕ) : ℕ :=
  (key.foldl binhashHashStep 0).toNat % size

/-- Insert an element at the head of its chain. -/
def binhashLink (table : Binhash α) (elm : BinhashInfo α) : Binhash α :=
  { table with
    data := table.data.modify (binhashHash elm.key table.size) (elm :: ·)
    used := table.used + 1 }

/-- A table of empty chains. The size is made odd. -/
def binhashSize (α : Type) (size : ℕ) : Binhash α where
  size := size ||| 1
  used := 0
  data := List.replicate (size ||| 1) []

/-- Create the initial table. -/
def binhashCreate (α : Type) (size : ℕ) : Binhash α :=
  binhashSize α (if size < 13 then 13 else size)

/-- Link the entries, chain after chain, into a table of twice the size. -/
def binhashGrow (table : Binhash α) : Binhash α :=
  table.data.flatten.foldl binhashLink (binhashSize α (2 * table.size))

/-- Enter a pair, growing a full table first. -/
def binhashEnter (table : Binhash α) (key : List (BitVec 8)) (value : α) : Binhash α :=
  let table := if table.used ≥ table.size then binhashGrow table else table
  binhashLink table ⟨key, value⟩

/-- Look a value up. There may be no table yet. -/
def binhashFind (table : Option (Binhash α)) (key : List (BitVec 8)) : Option α :=
  table.bind fun table =>
    ((table.data.getD (binhashHash key table.size) []).find? (·.key = key)).map (·.value)

/-- Delete one entry. The key must be there, unless there is no table. -/
def binhashDelete (table : Option (Binhash α)) (key : List (BitVec 8)) :
    Except Panic (Option (Binhash α)) :=
  match table with
  | none => pure none
  | some table =>
    let h := binhashHash key table.size
    if (table.data.getD h []).any (·.key = key) then
      pure (some { table with
        data := table.data.modify h (·.eraseP (·.key = key))
        used := table.used - 1 })
    else throw (.unknownKey key)

/-- The table's members, in the order of `binhash_list`. -/
def binhashList (table : Option (Binhash α)) : List (BinhashInfo α) :=
  match table with
  | none => []
  | some table => table.data.flatten

namespace Binhash

/-- Each entry is in the chain of its hash, and `used` counts the entries. -/
structure Wf (t : Binhash α) : Prop where
  size_pos : 0 < t.size
  length : t.data.length = t.size
  used : t.used = t.data.flatten.length
  placed : ∀ i, ∀ e ∈ t.data.getD i [], binhashHash e.key t.size = i

theorem hash_lt {t : Binhash α} (h : t.Wf) (key : List (BitVec 8)) :
    binhashHash key t.size < t.data.length := by
  rw [h.length]
  exact Nat.mod_lt _ h.size_pos

/-- An entry is in the chain its key hashes to. -/
theorem mem_flatten_iff {t : Binhash α} (h : t.Wf) {e : BinhashInfo α} :
    e ∈ t.data.flatten ↔ e ∈ t.data.getD (binhashHash e.key t.size) [] := by
  constructor
  · intro he
    obtain ⟨c, hc, hec⟩ := List.mem_flatten.1 he
    obtain ⟨i, hi, rfl⟩ := List.getElem_of_mem hc
    have hget : t.data.getD i [] = t.data[i] := by simp [hi]
    rw [← hget] at hec
    rwa [h.placed i e hec]
  · intro he
    have hi := hash_lt h e.key
    have hget : t.data.getD (binhashHash e.key t.size) [] = t.data[binhashHash e.key t.size] := by
      simp [hi]
    exact List.mem_flatten.2 ⟨_, List.getElem_mem hi, hget ▸ he⟩

/-- A chain after one chain was changed. -/
theorem getD_modify (data : List (List (BinhashInfo α))) (i j : ℕ)
    (f : List (BinhashInfo α) → List (BinhashInfo α)) (hi : i < data.length) :
    (data.modify i f).getD j [] = if j = i then f (data.getD j []) else data.getD j [] := by
  rw [List.getD_eq_getElem?_getD, List.getD_eq_getElem?_getD, List.getElem?_modify]
  rcases eq_or_ne j i with rfl | hj
  · simp [List.getElem?_eq_getElem hi]
  · simp [hj, Ne.symm hj]

theorem wf_binhashSize (α : Type) (size : ℕ) : (binhashSize α size).Wf where
  size_pos := Nat.pos_of_ne_zero fun h => by
    have := Nat.right_le_or (n := size) (m := 1)
    simp [binhashSize] at h
  length := by simp [binhashSize]
  used := by simp [binhashSize]
  placed i e he := by
    simp only [binhashSize, List.getD_eq_getElem?_getD, List.getElem?_replicate] at he
    split at he <;> simp at he

theorem link_perm {t : Binhash α} (h : t.Wf) (e : BinhashInfo α) :
    (binhashLink t e).data.flatten.Perm (e :: t.data.flatten) := by
  obtain ⟨l₁, c, l₂, hdata, -, hmod⟩ := List.exists_of_modify (e :: ·) (hash_lt h e.key)
  simp only [binhashLink, hmod]
  rw [hdata]
  simp only [List.flatten_append, List.flatten_cons, List.cons_append]
  exact List.perm_middle

theorem Wf.link {t : Binhash α} (h : t.Wf) (e : BinhashInfo α) : (binhashLink t e).Wf where
  size_pos := h.size_pos
  length := by simpa [binhashLink] using h.length
  used := by simpa [h.used, binhashLink] using (link_perm h e).length_eq.symm
  placed i x hx := by
    simp only [binhashLink] at hx ⊢
    rw [getD_modify _ _ _ _ (hash_lt h e.key)] at hx
    split at hx
    · rcases List.mem_cons.1 hx with rfl | hx
      · exact Eq.symm ‹_›
      · exact h.placed i x hx
    · exact h.placed i x hx

theorem Wf.foldl_link {l : List (BinhashInfo α)} : ∀ {t : Binhash α}, t.Wf →
    (l.foldl binhashLink t).Wf ∧
      (l.foldl binhashLink t).data.flatten.Perm (l ++ t.data.flatten) := by
  induction l with
  | nil => exact fun h => ⟨h, List.Perm.refl _⟩
  | cons e l ih =>
    intro t h
    obtain ⟨hwf, hperm⟩ := ih (h.link e)
    refine ⟨hwf, hperm.trans ?_⟩
    exact ((link_perm h e).append_left l).trans List.perm_middle

theorem Wf.grow {t : Binhash α} :
    (binhashGrow t).Wf ∧ (binhashGrow t).data.flatten.Perm t.data.flatten := by
  obtain ⟨hwf, hperm⟩ := Wf.foldl_link (l := t.data.flatten) (wf_binhashSize α (2 * t.size))
  have hempty : (binhashSize α (2 * t.size)).data.flatten = [] := by simp [binhashSize]
  rw [hempty, List.append_nil] at hperm
  exact ⟨hwf, hperm⟩

end Binhash

open Binhash

/-- Entering adds one entry. -/
theorem binhashEnter_perm {t : Binhash α} (h : t.Wf) (key : List (BitVec 8)) (value : α) :
    (binhashEnter t key value).Wf ∧
      (binhashEnter t key value).data.flatten.Perm (⟨key, value⟩ :: t.data.flatten) := by
  unfold binhashEnter
  split
  · obtain ⟨hwf, hperm⟩ := Wf.grow (t := t)
    exact ⟨hwf.link _, (link_perm hwf _).trans (hperm.cons _)⟩
  · exact ⟨h.link _, link_perm h _⟩

/-- The entry that is found for a key. -/
def binhashFirst (t : Binhash α) (key : List (BitVec 8)) : Option (BinhashInfo α) :=
  (t.data.getD (binhashHash key t.size) []).find? (·.key = key)

/-- An entry that is found is in the table. -/
theorem binhashFirst_spec {t : Binhash α} (h : t.Wf) {key : List (BitVec 8)} {e : BinhashInfo α}
    (he : binhashFirst t key = some e) : e.key = key ∧ e ∈ t.data.flatten := by
  have hkey : e.key = key := by simpa using List.find?_some he
  refine ⟨hkey, (mem_flatten_iff h).2 ?_⟩
  rw [hkey]
  exact List.mem_of_find?_eq_some he

/-- With distinct keys, an entry is the one that is found for its key. -/
theorem binhashFirst_eq_some {t : Binhash α} (h : t.Wf)
    (hnd : (t.data.flatten.map (·.key)).Nodup) {e : BinhashInfo α} (he : e ∈ t.data.flatten) :
    binhashFirst t e.key = some e := by
  cases hfirst : binhashFirst t e.key with
  | none => simpa using List.find?_eq_none.1 hfirst e ((mem_flatten_iff h).1 he)
  | some e' =>
    obtain ⟨hkey, he'⟩ := binhashFirst_spec h hfirst
    exact congrArg some (List.inj_on_of_nodup_map hnd he' he hkey)

/-- With distinct keys, a key finds its entry. -/
theorem binhashFind_eq_some {t : Binhash α} (h : t.Wf)
    (hnd : (t.data.flatten.map (·.key)).Nodup) {key : List (BitVec 8)} {value : α} :
    binhashFind (some t) key = some value ↔ ⟨key, value⟩ ∈ t.data.flatten := by
  constructor
  · intro hfind
    obtain ⟨e, he, rfl⟩ := Option.map_eq_some_iff.1 hfind
    obtain ⟨rfl, hmem⟩ := binhashFirst_spec h he
    exact hmem
  · intro hmem
    exact congrArg (Option.map (·.value)) (binhashFirst_eq_some h hnd hmem)

/-- Deleting a key takes away the entry that is found for it. -/
theorem binhashDelete_first {t : Binhash α} (h : t.Wf) {key : List (BitVec 8)} {e : BinhashInfo α}
    (he : binhashFirst t key = some e) : ∃ l₁ l₂,
      t.data.getD (binhashHash key t.size) [] = l₁ ++ e :: l₂ ∧
      (t.data.getD (binhashHash key t.size) []).eraseP (·.key = key) = l₁ ++ l₂ ∧
      ∃ t', binhashDelete (some t) key = .ok (some t') ∧ t'.size = t.size ∧ t'.used = t.used - 1 ∧
        t'.data = t.data.modify (binhashHash key t.size) (·.eraseP (·.key = key)) ∧ t'.Wf ∧
        t.data.flatten.Perm (e :: t'.data.flatten) := by
  obtain ⟨hkey, l₁, l₂, hsplit, hfirst⟩ := List.find?_eq_some_iff_append.1 he
  have hany : (t.data.getD (binhashHash key t.size) []).any (·.key = key) = true :=
    List.any_eq_true.2 ⟨e, hsplit ▸ by simp, hkey⟩
  have herase : (t.data.getD (binhashHash key t.size) []).eraseP (·.key = key) = l₁ ++ l₂ := by
    rw [hsplit, List.eraseP_append_right _ fun x hx => by simpa using hfirst x hx]
    exact congrArg (l₁ ++ ·) (List.eraseP_cons_of_pos hkey)
  obtain ⟨c₁, c, c₂, hdata, hlen, hmod⟩ :=
    List.exists_of_modify (·.eraseP (·.key = key)) (hash_lt h key)
  have hc : t.data.getD (binhashHash key t.size) [] = c := by
    rw [hdata, ← hlen]
    simp
  have hperm : t.data.flatten.Perm
      (e :: (t.data.modify (binhashHash key t.size) (·.eraseP (·.key = key))).flatten) := by
    rw [hmod, ← hc, herase, hdata, ← hc, hsplit]
    simp only [List.flatten_append, List.flatten_cons, List.append_assoc, List.cons_append]
    rw [← List.append_assoc, ← List.append_assoc]
    exact List.perm_middle
  refine ⟨l₁, l₂, hsplit, herase, { t with
    data := t.data.modify (binhashHash key t.size) (·.eraseP (·.key = key))
    used := t.used - 1 }, ?_, rfl, rfl, rfl, ⟨h.size_pos, by simpa using h.length, ?_, ?_⟩, hperm⟩
  · simp only [binhashDelete, hany, if_true]
    rfl
  · have hl := hperm.length_eq
    simp only [List.length_cons] at hl
    simp only [h.used]
    omega
  · intro i x hx
    simp only at hx ⊢
    rw [getD_modify _ _ _ _ (hash_lt h key)] at hx
    split at hx
    · exact h.placed i x (List.mem_of_mem_eraseP hx)
    · exact h.placed i x hx

/-- Deleting a key that is there takes its entry away. -/
theorem binhashDelete_perm {t : Binhash α} (h : t.Wf)
    (hnd : (t.data.flatten.map (·.key)).Nodup) {e : BinhashInfo α} (he : e ∈ t.data.flatten) :
    ∃ t', binhashDelete (some t) e.key = .ok (some t') ∧ t'.Wf ∧
      t.data.flatten.Perm (e :: t'.data.flatten) := by
  obtain ⟨-, -, -, -, t', hdel, -, -, -, hwf, hperm⟩ :=
    binhashDelete_first h (binhashFirst_eq_some h hnd he)
  exact ⟨t', hdel, hwf, hperm⟩

end Nowra
