import Mathlib.Data.Set.Card
import Nowra.Binhash
import Nowra.Chain
import Nowra.Mymalloc
import Nowra.Run

/-!
# The hash table in memory

`binhash.c` as it handles memory : entries that are linked in both directions, an array of the
heads of the chains, and a block of slots for `binhash_list`. An access to what is not there is a
fault.

Each operation does to the memory what the operation of the same name does to the lists of
`Binhash` (`BinhashMem.Refines`), and these make up a finite map (`binhash_refines`).

A loop over a chain gets a number of turns. It needs no more than there are entries.
-/

namespace Nowra

variable {α : Type}

/-- A table with the entries at their addresses. -/
structure BinhashMem (α : Type) where
  size : ℕ
  used : ℕ
  data : List (Option ℕ)
  info : ChainMem (BinhashInfo α)

namespace BinhashMem

/-! ## The operations -/

/-- Read an entry. -/
def read (table : BinhashMem α) (ht : ℕ) : Except Fault (ChainNode (BinhashInfo α)) :=
  match table.info ht with
  | none => throw .outside
  | some e => pure e

/-- Read the head of a chain. -/
def head (h : List (Option ℕ)) (i : ℕ) : Except Fault (Option ℕ) :=
  match h[i]? with
  | none => throw .outside
  | some ht => pure ht

/-- `ht->prev = v` where `ht` is not null. -/
def setPrevOf (table : BinhashMem α) (ht v : Option ℕ) : Except Fault (BinhashMem α) :=
  match ht with
  | none => pure table
  | some a => do
    let _ ← table.read a
    pure { table with info := table.info.setPrev a v }

/-- `binhash_link` -/
def binhashLink (table : BinhashMem α) (elm : ℕ) : Except Fault (BinhashMem α) := do
  let e ← table.read elm
  let h := binhashHash e.content.key table.size
  let next ← head table.data h
  let linked : ChainNode (BinhashInfo α) := ⟨e.content, next, none⟩
  let table ← setPrevOf { table with info := Function.update table.info elm (some linked) } next
    (some elm)
  pure { table with data := table.data.set h (some elm), used := table.used + 1 }

/-- Allocate as many empty chains as the size, which is made odd. -/
def binhashSize (table : BinhashMem α) (size : ℕ) : Except Fault (BinhashMem α) :=
  let size := size ||| 1
  let len := intOf (8 * size)
  if len < 1 then throw (.panic (.requestedLength "mymalloc" len))
  else if len < 8 * size then throw .outside
  else pure { table with data := List.replicate size none, size := size, used := 0 }

/-- Create the initial table. -/
def binhashCreate (α : Type) (size : ℤ) : Except Fault (BinhashMem α) :=
  binhashSize ⟨0, 0, [], fun _ => none⟩ (if size < 13 then 13 else size.toNat)

/-- The loop of `binhash_grow` over a chain of the old table. -/
def relink (turns : ℕ) (table : BinhashMem α) (ht : Option ℕ) : Except Fault (BinhashMem α) :=
  match ht with
  | none => pure table
  | some a =>
    match turns with
    | 0 => throw .outside
    | turns + 1 => do
      let e ← table.read a
      relink turns (← binhashLink table a) e.next

/-- Extend the table. -/
def binhashGrow (turns : ℕ) (table : BinhashMem α) : Except Fault (BinhashMem α) := do
  let oldSize := table.size
  let h := table.data
  let table ← binhashSize table (unsignedOf (2 * oldSize))
  (List.range oldSize).foldlM (fun table i => do relink turns table (← head h i)) table

/-- Enter a pair. The entry is put at the address `elm`. -/
def binhashEnter (turns : ℕ) (table : BinhashMem α) (key : List (BitVec 8)) (value : α)
    (elm : ℕ) : Except Fault (BinhashMem α) := do
  let table ← (if table.used ≥ table.size then binhashGrow turns table else pure table)
  if key.length < 1 then throw (.panic (.requestedLength "mymalloc" key.length))
  else
    let ht : ChainNode (BinhashInfo α) := ⟨⟨key, value⟩, none, none⟩
    binhashLink { table with info := Function.update table.info elm (some ht) } elm

/-- The loop that looks for a key. -/
def search (turns : ℕ) (table : BinhashMem α) (ht : Option ℕ) (key : List (BitVec 8)) :
    Except Fault (Option ℕ) :=
  match ht with
  | none => pure none
  | some a =>
    match turns with
    | 0 => throw .outside
    | turns + 1 => do
      let e ← table.read a
      if e.content.key = key then pure (some a) else search turns table e.next key

/-- Look an entry up. -/
def binhashLocate (turns : ℕ) (table : Option (BinhashMem α)) (key : List (BitVec 8)) :
    Except Fault (Option ℕ) :=
  match table with
  | none => pure none
  | some table => do
    search turns table (← head table.data (binhashHash key table.size)) key

/-- Look a value up. -/
def binhashFind [Zero α] (turns : ℕ) (table : Option (BinhashMem α)) (key : List (BitVec 8)) :
    Except Fault α :=
  match table with
  | none => pure 0
  | some table => do
    match ← (do search turns table (← head table.data (binhashHash key table.size)) key) with
    | none => pure 0
    | some ht => do
      let e ← table.read ht
      pure e.content.value

/-- Take an entry out of the chain `h`. -/
def unlink (table : BinhashMem α) (h : ℕ) (ht : ChainNode (BinhashInfo α)) :
    Except Fault (BinhashMem α) := do
  let table ← setPrevOf table ht.next ht.prev
  match ht.prev with
  | some a => do
    let _ ← table.read a
    pure { table with info := table.info.setNext a ht.next }
  | none => pure { table with data := table.data.set h ht.next }

/-- Delete one entry. The result has the value that is given to `free_fn`. -/
def binhashDelete (turns : ℕ) (table : BinhashMem α) (key : List (BitVec 8)) :
    Except Fault (BinhashMem α × α) := do
  let h := binhashHash key table.size
  match ← (do search turns table (← head table.data h) key) with
  | none => throw (.panic (.unknownKey key))
  | some a => do
    let ht ← table.read a
    let table ← unlink table h ht
    pure ({ table with used := table.used - 1, info := Function.update table.info a none },
      ht.content.value)

/-- A loop over the entries of a chain. -/
def walkChain {σ : Type} (turns : ℕ) (table : BinhashMem α) (action : σ → ℕ → Except Fault σ)
    (ptr : σ) (ht : Option ℕ) : Except Fault σ :=
  match ht with
  | none => pure ptr
  | some a =>
    match turns with
    | 0 => throw .outside
    | turns + 1 => do
      let ptr ← action ptr a
      let e ← table.read a
      walkChain turns table action ptr e.next

/-- Iterate over the table. -/
def binhashWalk {σ : Type} (turns : ℕ) (table : Option (BinhashMem α))
    (action : σ → ℕ → Except Fault σ) (ptr : σ) : Except Fault σ :=
  match table with
  | none => pure ptr
  | some table =>
    (List.range table.size).foldlM
      (fun ptr i => do walkChain turns table action ptr (← head table.data i)) ptr

/-- A block of pointers. What is not written yet is `none`. -/
abbrev Slots := List (Option (Option ℕ))

/-- `list[count++] = member`. -/
def storeSlot (list : Slots × ℕ) (member : Option ℕ) : Except Fault (Slots × ℕ) :=
  if list.2 < list.1.length then pure (list.1.set list.2 (some member), list.2 + 1)
  else throw .outside

/-- List all table members. -/
def binhashList (turns : ℕ) (table : Option (BinhashMem α)) : Except Fault Slots := do
  let len := match table with
    | none => 8
    | some table => intOf (8 * (table.used + 1))
  if len < 1 then throw (.panic (.requestedLength "mymalloc" len))
  else
    let list : Slots × ℕ := (List.replicate (len.toNat / 8) none, 0)
    let list ← binhashWalk turns table (fun list member => storeSlot list (some member)) list
    let list ← storeSlot list none
    pure list.1

/-! ## Loops -/

/-- A loop over the array of the heads. -/
theorem foldlM_head {σ : Type} (f : σ → Option ℕ → Except Fault σ) (h : List (Option ℕ)) (s : σ) :
    (List.range h.length).foldlM (fun s i => do f s (← head h i)) s = h.foldlM f s := by
  suffices hloop : ∀ (h pre : List (Option ℕ)) (s : σ),
      (List.range' pre.length h.length).foldlM (fun s i => do f s (← head (pre ++ h) i)) s =
        h.foldlM f s by
    rw [List.range_eq_range']
    exact hloop h [] s
  intro h
  induction h with
  | nil => intros; rfl
  | cons x h ih =>
    intro pre s
    have hhead : head (pre ++ x :: h) pre.length = .ok x := by
      rw [head, List.getElem?_append_right le_rfl, Nat.sub_self]
      rfl
    rw [List.length_cons, List.range'_succ, List.foldlM_cons, List.foldlM_cons, hhead]
    refine congrArg (f s x >>= ·) (funext fun s' => ?_)
    have hnext := ih (pre ++ [x]) s'
    rwa [List.length_append, List.length_singleton, List.append_assoc] at hnext

theorem read_eq {t : BinhashMem α} {a : ℕ} {e : ChainNode (BinhashInfo α)}
    (h : t.info a = some e) : t.read a = .ok e := by
  rw [read, h]
  rfl

/-- The loop over a chain visits its addresses. -/
theorem walkChain_eq {σ : Type} {t : BinhashMem α} {action : σ → ℕ → Except Fault σ}
    {l : List (ℕ × BinhashInfo α)} {turns : ℕ} (hturns : l.length ≤ turns) {ptr : σ}
    {s : Option ℕ} (hl : Linked t.info s l) :
    walkChain turns t action ptr s = (addrs l).foldlM action ptr := by
  induction l generalizing turns ptr s with
  | nil =>
    obtain rfl : s = none := hl
    unfold walkChain
    rfl
  | cons x l ih =>
    obtain ⟨rfl, n, p, hx, hl⟩ := hl
    obtain _ | turns := turns
    · simp at hturns
    unfold walkChain
    rw [addrs, List.map_cons, List.foldlM_cons]
    refine congrArg (action ptr x.1 >>= ·) (funext fun ptr' => ?_)
    rw [read_eq hx]
    exact ih (Nat.le_of_succ_le_succ hturns) hl

/-- The loop that looks for a key finds the first entry with it. -/
theorem search_eq {t : BinhashMem α} {key : List (BitVec 8)} {l : List (ℕ × BinhashInfo α)}
    {turns : ℕ} (hturns : l.length ≤ turns) {s : Option ℕ} (hl : Linked t.info s l) :
    search turns t s key = .ok ((l.find? (·.2.key = key)).map Prod.fst) := by
  induction l generalizing turns s with
  | nil =>
    obtain rfl : s = none := hl
    unfold search
    rfl
  | cons x l ih =>
    obtain ⟨rfl, n, p, hx, hl⟩ := hl
    obtain _ | turns := turns
    · simp at hturns
    unfold search
    rw [read_eq hx]
    by_cases hkey : x.2.key = key
    · rw [List.find?_cons_of_pos (by simpa using hkey)]
      exact if_pos hkey
    · rw [List.find?_cons_of_neg (by simpa using hkey), ← ih (Nat.le_of_succ_le_succ hturns) hl]
      exact if_neg hkey

/-- Slots are written one after the other. -/
theorem storeSlots_eq {done : Slots} {xs : List ℕ} {k : ℕ} (hk : xs.length ≤ k) :
    xs.foldlM (fun list member => storeSlot list (some member))
        (done ++ List.replicate k none, done.length) =
      .ok (done ++ xs.map (fun a => some (some a)) ++ List.replicate (k - xs.length) none,
        done.length + xs.length) := by
  induction xs generalizing done k with
  | nil => simp [pure, Except.pure]
  | cons x xs ih =>
    obtain _ | k := k
    · simp at hk
    have hstore : storeSlot (done ++ List.replicate (k + 1) none, done.length) (some x) =
        .ok ((done ++ [some (some x)]) ++ List.replicate k none,
          (done ++ [some (some x)]).length) := by
      rw [storeSlot, if_pos (by simp)]
      simp [pure, Except.pure, List.replicate_succ]
    rw [List.foldlM_cons, hstore]
    refine (ih (Nat.le_of_succ_le_succ hk)).trans ?_
    simp only [List.append_assoc, List.length_append, List.length_cons, List.length_nil,
      List.map_cons, List.singleton_append, Nat.add_sub_add_right, Nat.add_assoc, Nat.add_comm 1,
      Nat.zero_add]

/-! ## The lists behind the memory -/

/-- An entry with its address, as it is in memory. -/
def entryAt (e : BinhashInfo (ℕ × α)) : ℕ × BinhashInfo α := (e.value.1, ⟨e.key, e.value.2⟩)

/-- The memory has the chains of `b`, whose values are the addresses and values of the entries. -/
structure Refines (t : BinhashMem α) (b : Binhash (ℕ × α)) : Prop where
  size : t.size = b.size
  used : t.used = b.used
  length : t.data.length = b.data.length
  chain : ∀ i, Chain t.info none (t.data.getD i none) ((b.data.getD i []).map entryAt) none
  nodup : (addrs (b.data.flatten.map entryAt)).Nodup

variable {t : BinhashMem α} {b : Binhash (ℕ × α)}

/-- Addresses in different chains are different. -/
theorem Refines.chain_ne (h : t.Refines b) (hwf : b.Wf) {i j x y : ℕ} (hij : i ≠ j)
    (hx : x ∈ addrs ((b.data.getD i []).map entryAt))
    (hy : y ∈ addrs ((b.data.getD j []).map entryAt)) : x ≠ y := by
  have hmem : ∀ {k : ℕ} {z : ℕ}, z ∈ addrs ((b.data.getD k []).map entryAt) →
      ∃ e ∈ b.data.flatten, binhashHash e.key b.size = k ∧ e.value.1 = z := by
    intro k z hz
    obtain ⟨c, hc, rfl⟩ := List.mem_map.1 hz
    obtain ⟨e, he, rfl⟩ := List.mem_map.1 hc
    have hk := hwf.placed k e he
    exact ⟨e, (Binhash.mem_flatten_iff hwf).2 (hk.symm ▸ he), hk, rfl⟩
  obtain ⟨e, he, rfl, rfl⟩ := hmem hx
  obtain ⟨e', he', rfl, rfl⟩ := hmem hy
  intro heq
  have hnd := h.nodup
  rw [addrs, List.map_map] at hnd
  exact hij (congrArg (binhashHash ·.key b.size) (List.inj_on_of_nodup_map hnd he he' heq))

theorem head_eq {h : List (Option ℕ)} {i : ℕ} (hi : i < h.length) :
    head h i = .ok (h.getD i none) := by
  rw [head, List.getD_eq_getElem?_getD, List.getElem?_eq_getElem hi]
  rfl

theorem setPrevOf_eq {ht v : Option ℕ} (hht : ∀ a ∈ ht, ∃ e, t.info a = some e) :
    setPrevOf t ht v = .ok { t with info := t.info.setPrevOf ht v } := by
  cases ht with
  | none => rfl
  | some a =>
    obtain ⟨e, he⟩ := hht a rfl
    exact bind_ok_iff.2 ⟨e, read_eq he, rfl⟩

/-- A chain after one head was changed. -/
theorem getD_set {h : List (Option ℕ)} {i : ℕ} (hi : i < h.length) (j : ℕ) (v : Option ℕ) :
    (h.set i v).getD j none = if j = i then v else h.getD j none := by
  rw [List.getD_eq_getElem?_getD, List.getD_eq_getElem?_getD, List.getElem?_set]
  rcases eq_or_ne i j with rfl | hij
  · simp [hi]
  · simp [hij, Ne.symm hij]

theorem getD_sublist {γ : Type} (data : List (List γ)) (i : ℕ) :
    (data.getD i []).Sublist data.flatten := by
  rw [List.getD_eq_getElem?_getD]
  rcases Nat.lt_or_ge i data.length with hi | hi
  · rw [List.getElem?_eq_getElem hi]
    exact List.sublist_flatten_of_mem (List.getElem_mem hi)
  · rw [List.getElem?_eq_none hi]
    exact List.nil_sublist _

/-- The addresses of a chain are among the addresses of the table. -/
theorem addrs_sublist (b : Binhash (ℕ × α)) (i : ℕ) :
    (addrs ((b.data.getD i []).map entryAt)).Sublist (addrs (b.data.flatten.map entryAt)) :=
  ((getD_sublist b.data i).map entryAt).map Prod.fst

/-- An entry that is in memory is put at the head of its chain. -/
theorem Refines.link (h : t.Refines b) (hwf : b.Wf) {e : BinhashInfo (ℕ × α)} {n p : Option ℕ}
    (hnode : t.info e.value.1 = some ⟨⟨e.key, e.value.2⟩, n, p⟩)
    (hnew : e.value.1 ∉ addrs (b.data.flatten.map entryAt)) :
    ∃ t', binhashLink t e.value.1 = .ok t' ∧ t'.Refines (Nowra.binhashLink b e) ∧
      ∀ a, a ≠ e.value.1 → a ∉ addrs (b.data.flatten.map entryAt) → t'.info a = t.info a := by
  obtain ⟨k, hk⟩ : ∃ k, binhashHash e.key b.size = k := ⟨_, rfl⟩
  have hk' : binhashHash e.key t.size = k := by rw [h.size, hk]
  have hlt : k < b.data.length := hk ▸ Binhash.hash_lt hwf e.key
  have hlt' : k < t.data.length := h.length ▸ hlt
  obtain ⟨s, hs⟩ : ∃ s, t.data.getD k none = s := ⟨_, rfl⟩
  have hchain := h.chain k
  rw [hs] at hchain
  have hmem : ∀ c ∈ s, c ∈ addrs ((b.data.getD k []).map entryAt) := by
    rintro c rfl
    exact hchain.start_mem
  have hne : ∀ i, ∀ c ∈ addrs ((b.data.getD i []).map entryAt), c ≠ e.value.1 := by
    rintro i c hc rfl
    exact hnew ((addrs_sublist b i).subset hc)
  let linked : ChainNode (BinhashInfo α) := ⟨⟨e.key, e.value.2⟩, s, none⟩
  have hself : Function.update t.info e.value.1 (some linked) e.value.1 = some linked :=
    Function.update_self ..
  have hother : ∀ i, ∀ c ∈ addrs ((b.data.getD i []).map entryAt),
      Function.update t.info e.value.1 (some linked) c = t.info c := fun i c hc =>
    Function.update_of_ne (hne i c hc) ..
  have hset : setPrevOf { t with info := Function.update t.info e.value.1 (some linked) } s
      (some e.value.1) = .ok { t with
        info := ChainMem.setPrevOf (Function.update t.info e.value.1 (some linked)) s
          (some e.value.1) } := by
    refine setPrevOf_eq fun c hc => ?_
    obtain ⟨x, hx, rfl⟩ := List.mem_map.1 (hmem c hc)
    obtain ⟨n, q, hnode⟩ := hchain.node hx
    exact ⟨_, (hother k _ (hmem _ hc)).trans hnode⟩
  have hpush := Chain.push (hchain.congr (hother k)) ((addrs_sublist b k).nodup h.nodup)
    (fun ha => hne k _ ha rfl) hself
  let t' : BinhashMem α :=
    ⟨t.size, t.used + 1, t.data.set k (some e.value.1), ChainMem.setPrevOf
      (Function.update t.info e.value.1 (some linked)) s (some e.value.1)⟩
  refine ⟨t', bind_ok_iff.2 ⟨_, read_eq hnode, ?_⟩, ⟨h.size, ?_, ?_, fun i => ?_, ?_⟩,
    fun a ha hna => ?_⟩
  · simp only [hk']
    exact bind_ok_iff.2 ⟨s, hs ▸ head_eq hlt', bind_ok_iff.2 ⟨_, hset, rfl⟩⟩
  · exact congrArg (· + 1) h.used
  · simp only [t', List.length_set, Nowra.binhashLink, List.length_modify, h.length]
  · simp only [t', Nowra.binhashLink, hk]
    rw [getD_set hlt', Binhash.getD_modify _ _ _ _ hlt]
    rcases eq_or_ne i k with rfl | hi
    · rw [if_pos rfl, if_pos rfl]
      exact hpush
    · rw [if_neg hi, if_neg hi]
      refine (h.chain i).congr fun c hc => ?_
      rw [ChainMem.setPrevOf_of_ne fun a ha => h.chain_ne hwf hi hc (hmem a ha)]
      exact hother i c hc
  · have hperm := ((Binhash.link_perm hwf e).map entryAt).map Prod.fst
    exact hperm.nodup_iff.2 (List.nodup_cons.2 ⟨hnew, h.nodup⟩)
  · refine (ChainMem.setPrevOf_of_ne fun c hc => ?_).trans (Function.update_of_ne ha ..)
    rintro rfl
    exact hna ((addrs_sublist b k).subset (hmem a hc))

/-- A chain that is not in the table is linked into it, entry after entry. -/
theorem Refines.relink {l : List (BinhashInfo (ℕ × α))} (h : t.Refines b) (hwf : b.Wf)
    {s : Option ℕ} (hl : Linked t.info s (l.map entryAt))
    (hnd : (addrs ((l ++ b.data.flatten).map entryAt)).Nodup) {turns : ℕ}
    (hturns : l.length ≤ turns) :
    ∃ t', relink turns t s = .ok t' ∧ t'.Refines (l.foldl Nowra.binhashLink b) ∧
      ∀ a, a ∉ addrs ((l ++ b.data.flatten).map entryAt) → t'.info a = t.info a := by
  induction l generalizing t b s turns with
  | nil =>
    obtain rfl : s = none := hl
    exact ⟨t, by unfold BinhashMem.relink; rfl, h, fun _ _ => rfl⟩
  | cons e l ih =>
    obtain ⟨rfl, n, p, hnode, hl⟩ := hl
    obtain _ | turns := turns
    · simp at hturns
    have hnd' := hnd
    rw [List.cons_append, List.map_cons, addrs, List.map_cons, List.nodup_cons] at hnd'
    have hsub : ∀ a ∈ addrs (b.data.flatten.map entryAt),
        a ∈ addrs ((l ++ b.data.flatten).map entryAt) := by
      intro a ha
      rw [List.map_append, addrs, List.map_append]
      exact List.mem_append_right _ ha
    obtain ⟨t₁, hlink, h₁, hframe₁⟩ := h.link hwf hnode fun ha => hnd'.1 (hsub _ ha)
    have hperm : (addrs ((l ++ (Nowra.binhashLink b e).data.flatten).map entryAt)).Perm
        (addrs ((e :: l ++ b.data.flatten).map entryAt)) := by
      refine List.Perm.map _ (List.Perm.map _ ?_)
      exact ((Binhash.link_perm hwf e).append_left l).trans List.perm_middle
    have hl₁ : Linked t₁.info n (l.map entryAt) := by
      refine hl.congr fun a ha => hframe₁ a ?_ ?_
      · rintro rfl
        refine hnd'.1 ?_
        rw [List.map_append, List.map_append]
        exact List.mem_append_left _ ha
      · rw [List.map_append, List.map_append, List.nodup_append] at hnd'
        exact fun hb => hnd'.2.2.2 a ha a hb rfl
    obtain ⟨t', hrec, h', hframe'⟩ :=
      ih h₁ (hwf.link e) hl₁ (hperm.nodup_iff.2 hnd) (Nat.le_of_succ_le_succ hturns)
    refine ⟨t', ?_, h', fun a ha => ?_⟩
    · unfold BinhashMem.relink
      exact bind_ok_iff.2 ⟨_, read_eq hnode, bind_ok_iff.2 ⟨t₁, hlink, hrec⟩⟩
    · rw [hframe' a (fun hmem => ha (hperm.mem_iff.1 hmem))]
      refine hframe₁ a ?_ fun hb => ha (List.mem_cons_of_mem _ (hsub a hb))
      rintro rfl
      exact ha (List.mem_cons_self ..)

/-- All chains of an old table are linked into a new one. -/
theorem Refines.relinkAll {cs : List (List (BinhashInfo (ℕ × α)))} (h : t.Refines b) (hwf : b.Wf)
    {hs : List (Option ℕ)} (hlen : hs.length = cs.length)
    (hl : ∀ i, Linked t.info (hs.getD i none) ((cs.getD i []).map entryAt))
    (hnd : (addrs ((cs.flatten ++ b.data.flatten).map entryAt)).Nodup) {turns : ℕ}
    (hturns : cs.flatten.length ≤ turns) :
    ∃ t', hs.foldlM (BinhashMem.relink turns) t = .ok t' ∧
      t'.Refines (cs.flatten.foldl Nowra.binhashLink b) := by
  induction cs generalizing t b hs with
  | nil =>
    obtain rfl := List.length_eq_zero_iff.1 hlen
    exact ⟨t, rfl, h⟩
  | cons c cs ih =>
    obtain _ | ⟨s, hs⟩ := hs
    · cases hlen
    rw [List.flatten_cons, List.length_append] at hturns
    have hperm : (addrs ((cs.flatten ++ (c ++ b.data.flatten)).map entryAt)).Perm
        (addrs (((c :: cs).flatten ++ b.data.flatten).map entryAt)) := by
      refine List.Perm.map _ (List.Perm.map _ ?_)
      rw [List.flatten_cons, ← List.append_assoc]
      exact List.perm_append_comm.append_right _
    have hnd' := hperm.nodup_iff.2 hnd
    rw [List.map_append, addrs, List.map_append, List.nodup_append] at hnd'
    have hturns' : c.length ≤ turns := by omega
    obtain ⟨t₁, hlink, h₁, hframe⟩ := h.relink hwf (hl 0) hnd'.2.1 hturns'
    have hl₁ : ∀ i, Linked t₁.info (hs.getD i none) ((cs.getD i []).map entryAt) := by
      refine fun i => (hl (i + 1)).congr fun a ha => hframe a fun hmem => ?_
      exact hnd'.2.2 a (((getD_sublist cs i).map entryAt).map Prod.fst |>.subset ha) a hmem rfl
    obtain ⟨hwf₁, hperm₁⟩ := Binhash.Wf.foldl_link (l := c) hwf
    have hperm₂ := (((hperm₁.append_left cs.flatten).map entryAt).map Prod.fst).trans hperm
    obtain ⟨t', hrec, h'⟩ :=
      ih h₁ hwf₁ (Nat.succ.inj hlen) hl₁ (hperm₂.nodup_iff.2 hnd) (by omega)
    refine ⟨t', ?_, ?_⟩
    · rw [List.foldlM_cons]
      exact bind_ok_iff.2 ⟨t₁, hlink, hrec⟩
    · rwa [List.flatten_cons, List.foldl_append]

/-- An array of a size that is not too large is allocated. -/
theorem binhashSize_eq {size : ℕ} (hsmall : size ||| 1 < 2 ^ 28) : binhashSize t size =
    .ok ⟨size ||| 1, 0, List.replicate (size ||| 1) none, t.info⟩ := by
  have hpos : 1 ≤ size ||| 1 := Nat.right_le_or
  have hlen : intOf (8 * (size ||| 1 : ℕ)) = 8 * (size ||| 1 : ℕ) := intOf_eq (by omega) (by omega)
  unfold binhashSize
  simp only [hlen]
  rw [if_neg (by omega), if_neg (by omega)]
  rfl

theorem refines_empty (size : ℕ) (info : ChainMem (BinhashInfo α)) :
    Refines ⟨size ||| 1, 0, List.replicate (size ||| 1) none, info⟩
      (Nowra.binhashSize (ℕ × α) size) := by
  have hget : ∀ {γ : Type} (n i : ℕ) (x : γ), (List.replicate n x).getD i x = x := by
    intro γ n i x
    rw [List.getD_eq_getElem?_getD, List.getElem?_replicate]
    split <;> rfl
  refine ⟨rfl, rfl, ?_, fun i => ?_, ?_⟩
  · simp only [Nowra.binhashSize, List.length_replicate]
  · simp only [Nowra.binhashSize, hget]
    rfl
  · simp [Nowra.binhashSize]

/-- A table grows if twice its size is not too large. -/
theorem Refines.grow (h : t.Refines b) (hwf : b.Wf) (hsmall : 2 * t.size ||| 1 < 2 ^ 28)
    {turns : ℕ} (hturns : t.used ≤ turns) :
    ∃ t', binhashGrow turns t = .ok t' ∧ t'.Refines (Nowra.binhashGrow b) := by
  have hsize : unsignedOf (2 * t.size) = 2 * t.size := by
    have hle : 2 * t.size ≤ 2 * t.size ||| 1 := Nat.left_le_or
    unfold unsignedOf
    omega
  have hnd : (addrs ((b.data.flatten ++ (Nowra.binhashSize (ℕ × α) (2 * t.size)).data.flatten).map
      entryAt)).Nodup := by
    have hempty : (Nowra.binhashSize (ℕ × α) (2 * t.size)).data.flatten = [] := by
      simp [Nowra.binhashSize]
    rw [hempty, List.append_nil]
    exact h.nodup
  have hlen : b.data.flatten.length ≤ turns := by rwa [← hwf.used, ← h.used]
  obtain ⟨t', hrun, h'⟩ :=
    (refines_empty (2 * t.size) t.info).relinkAll (Binhash.wf_binhashSize _ _) h.length
      (fun i => (h.chain i).linked) hnd hlen
  refine ⟨t', ?_, ?_⟩
  · unfold binhashGrow
    have hdata : t.data.length = t.size := by rw [h.length, hwf.length, h.size]
    rw [← foldlM_head, hdata] at hrun
    simp only [hsize]
    exact bind_ok_iff.2 ⟨_, binhashSize_eq hsmall, hrun⟩
  · rwa [h.size] at h'

/-- Memory outside the table can be used for something else. -/
theorem Refines.update (h : t.Refines b) {elm : ℕ}
    (hnew : elm ∉ addrs (b.data.flatten.map entryAt)) (x : Option (ChainNode (BinhashInfo α))) :
    Refines { t with info := Function.update t.info elm x } b := by
  refine ⟨h.size, h.used, h.length, fun i => (h.chain i).congr fun a ha => ?_, h.nodup⟩
  refine Function.update_of_ne ?_ _ _
  rintro rfl
  exact hnew ((addrs_sublist b i).subset ha)

/-- The entries of the table are in memory. -/
theorem Refines.info (h : t.Refines b) (hwf : b.Wf) {e : BinhashInfo (ℕ × α)}
    (he : e ∈ b.data.flatten) : ∃ n p, t.info e.value.1 = some ⟨⟨e.key, e.value.2⟩, n, p⟩ :=
  (h.chain _).node (List.mem_map_of_mem ((Binhash.mem_flatten_iff hwf).1 he))

/-- An address that is not used is not the address of an entry. -/
theorem Refines.not_mem (h : t.Refines b) (hwf : b.Wf) {elm : ℕ} (helm : t.info elm = none) :
    elm ∉ addrs (b.data.flatten.map entryAt) := by
  intro hmem
  obtain ⟨c, hc, rfl⟩ := List.mem_map.1 hmem
  obtain ⟨e, he, rfl⟩ := List.mem_map.1 hc
  obtain ⟨n, p, hnode⟩ := h.info hwf he
  cases helm.symm.trans hnode

/-- A pair is entered at an address that is not used. -/
theorem Refines.enter (h : t.Refines b) (hwf : b.Wf) {key : List (BitVec 8)} (hkey : key ≠ [])
    (value : α) {elm : ℕ} (helm : t.info elm = none)
    (hsmall : t.size ≤ t.used → 2 * t.size ||| 1 < 2 ^ 28) {turns : ℕ} (hturns : t.used ≤ turns) :
    ∃ t', binhashEnter turns t key value elm = .ok t' ∧
      t'.Refines (Nowra.binhashEnter b key (elm, value)) := by
  have hnew := h.not_mem hwf helm
  have hput : ∀ {t : BinhashMem α} {b : Binhash (ℕ × α)}, t.Refines b → b.Wf →
      elm ∉ addrs (b.data.flatten.map entryAt) → ∃ t', binhashLink { t with
        info := Function.update t.info elm (some ⟨⟨key, value⟩, none, none⟩) } elm = .ok t' ∧
        t'.Refines (Nowra.binhashLink b ⟨key, (elm, value)⟩) := by
    intro t b h hwf hnew
    obtain ⟨t', hlink, h', -⟩ := (h.update hnew (some ⟨⟨key, value⟩, none, none⟩)).link hwf
      (e := ⟨key, (elm, value)⟩) (Function.update_self ..) hnew
    exact ⟨t', hlink, h'⟩
  have hlen : ¬key.length < 1 := by
    have := List.length_pos_of_ne_nil hkey
    omega
  unfold binhashEnter Nowra.binhashEnter
  rw [← h.used, ← h.size]
  by_cases hfull : t.used ≥ t.size
  · obtain ⟨t₁, hgrow, h₁⟩ := h.grow hwf (hsmall hfull) hturns
    obtain ⟨hwf₁, hperm⟩ := Binhash.Wf.grow (t := b)
    have hnew₁ : elm ∉ addrs ((Nowra.binhashGrow b).data.flatten.map entryAt) := fun hmem =>
      hnew ((((hperm.map entryAt).map Prod.fst).mem_iff).1 hmem)
    obtain ⟨t', hlink, h'⟩ := hput h₁ hwf₁ hnew₁
    refine ⟨t', ?_, ?_⟩
    · rw [if_pos hfull]
      refine bind_ok_iff.2 ⟨t₁, hgrow, ?_⟩
      rw [if_neg hlen]
      exact hlink
    · rwa [if_pos hfull]
  · obtain ⟨t', hlink, h'⟩ := hput h hwf hnew
    refine ⟨t', ?_, ?_⟩
    · rw [if_neg hfull]
      refine bind_ok_iff.2 ⟨t, rfl, ?_⟩
      rw [if_neg hlen]
      exact hlink
    · rwa [if_neg hfull]

/-! ## Lookups -/

/-- The value of a key in the lists is its address and its value in memory. -/
theorem Refines.search (h : t.Refines b) (hwf : b.Wf) (key : List (BitVec 8)) {turns : ℕ}
    (hturns : t.used ≤ turns) :
    (do search turns t (← head t.data (binhashHash key t.size)) key) =
      .ok ((Nowra.binhashFind (some b) key).map Prod.fst) := by
  have hlt : binhashHash key b.size < t.data.length := h.length ▸ Binhash.hash_lt hwf key
  have hlen : ((b.data.getD (binhashHash key b.size) []).map entryAt).length ≤ turns := by
    have := (getD_sublist b.data (binhashHash key b.size)).length_le
    rw [List.length_map]
    have := hwf.used
    have := h.used
    omega
  rw [h.size, head_eq hlt]
  refine (search_eq hlen (h.chain _).linked).trans ?_
  simp only [Nowra.binhashFind, Option.bind_some, List.find?_map, Option.map_map]
  rfl

/-- An entry is taken out of its chain. -/
theorem unlink_eq {k a : ℕ} (hk : k < t.data.length) {l₁ l₂ : List (ℕ × BinhashInfo α)}
    {c : BinhashInfo α} (hchain : Chain t.info none (t.data.getD k none) (l₁ ++ (a, c) :: l₂) none)
    (hnd : (addrs (l₁ ++ (a, c) :: l₂)).Nodup) :
    ∃ ht t', t.read a = .ok ht ∧ ht.content = c ∧ unlink t k ht = .ok t' ∧ t'.size = t.size ∧
      t'.used = t.used ∧ t'.data.length = t.data.length ∧
      (∀ j, j ≠ k → t'.data.getD j none = t.data.getD j none) ∧
      Chain t'.info none (t'.data.getD k none) (l₁ ++ l₂) none ∧
      ∀ x, x ∉ addrs (l₁ ++ l₂) → t'.info x = t.info x := by
  obtain ⟨n, hnode, hn, hunlink⟩ := hchain.unlink hnd
  obtain ⟨p, hp⟩ : ∃ p, lastAddr none l₁ = p := ⟨_, rfl⟩
  rw [hp] at hnode hunlink
  have hp₁ : ∀ x ∈ p, x ∈ addrs l₁ := fun x hx => lastAddr_mem (hp.trans hx)
  have hsome : ∀ x ∈ addrs l₁ ++ addrs l₂, ∃ e, t.info x = some e := by
    intro x hx
    rw [← List.map_append] at hx
    obtain ⟨y, hy, rfl⟩ := List.mem_map.1 hx
    obtain ⟨n, q, hnode⟩ := hchain.node (List.mem_append.2
      ((List.mem_append.1 hy).imp_right (List.mem_cons_of_mem _)))
    exact ⟨_, hnode⟩
  have hset : setPrevOf t n p = .ok { t with info := t.info.setPrevOf n p } :=
    setPrevOf_eq fun x hx => hsome x (List.mem_append_right _ (hn x hx))
  have hframe : ∀ x, x ∉ addrs (l₁ ++ l₂) → t.info.unlink n p x = t.info x := by
    intro x hx
    rw [addrs, List.map_append, List.mem_append, not_or] at hx
    refine ChainMem.unlink_of_ne ?_ ?_
    · rintro y hy rfl
      exact hx.2 (hn x hy)
    · rintro y hy rfl
      exact hx.1 (hp₁ x hy)
  refine ⟨⟨c, n, p⟩, ?_⟩
  cases p with
  | none =>
    obtain rfl := lastAddr_none_iff.1 hp
    refine ⟨{ t with info := t.info.setPrevOf n none, data := t.data.set k n }, read_eq hnode, rfl,
      bind_ok_iff.2 ⟨_, hset, rfl⟩, rfl, rfl, List.length_set, fun j hj => ?_, ?_, hframe⟩
    · rw [getD_set hk, if_neg hj]
    · rw [getD_set hk, if_pos rfl]
      exact hunlink
  | some q =>
    have hl₁ : l₁ ≠ [] := by
      rintro rfl
      cases hp
    rw [if_neg hl₁] at hunlink
    have hq : ∃ e, t.info.setPrevOf n (some q) q = some e := by
      rw [ChainMem.setPrevOf_of_ne]
      · exact hsome q (List.mem_append_left _ (hp₁ q rfl))
      · rintro x hx rfl
        rw [addrs, List.map_append, List.nodup_append] at hnd
        exact hnd.2.2 q (hp₁ q rfl) q (List.mem_cons_of_mem _ (hn q hx)) rfl
    obtain ⟨e, he⟩ := hq
    exact ⟨{ t with info := t.info.unlink n (some q) }, read_eq hnode, rfl,
      bind_ok_iff.2 ⟨_, hset, bind_ok_iff.2 ⟨e, read_eq he, rfl⟩⟩, rfl, rfl, rfl,
      fun _ _ => rfl, hunlink, hframe⟩

/-- The entry that is found for a key is deleted from the memory as from the lists. -/
theorem Refines.delete_first (h : t.Refines b) (hwf : b.Wf) {key : List (BitVec 8)}
    {e : BinhashInfo (ℕ × α)} (he : binhashFirst b key = some e) {turns : ℕ}
    (hturns : t.used ≤ turns) :
    ∃ t' b', binhashDelete turns t key = .ok (t', e.value.2) ∧
      Nowra.binhashDelete (some b) key = .ok (some b') ∧ t'.Refines b' ∧ b'.Wf ∧
      b'.size = b.size := by
  obtain ⟨l₁, l₂, hsplit, herase, b', hdel, hbsize, hbused, hbdata, hwf', hperm⟩ :=
    binhashDelete_first hwf he
  obtain ⟨k, hk⟩ : ∃ k, binhashHash key b.size = k := ⟨_, rfl⟩
  have hlt : k < b.data.length := hk ▸ Binhash.hash_lt hwf key
  rw [hk] at hsplit herase hbdata
  -- the entry is taken out of its chain
  have hchain := h.chain k
  have hdist := (addrs_sublist b k).nodup h.nodup
  rw [hsplit, List.map_append, List.map_cons] at hchain hdist
  have hlt' : k < t.data.length := h.length ▸ hlt
  obtain ⟨ht, t₁, hread, hcontent, hunlink, hsize, hused, hlen, hget, hchain₁, hframe⟩ :=
    unlink_eq hlt' hchain hdist
  have hsearch := h.search hwf key hturns
  rw [show Nowra.binhashFind (some b) key = some e.value from congrArg (Option.map _) he,
    Option.map_some] at hsearch
  have hnd' : (addrs (e :: b'.data.flatten |>.map entryAt)).Nodup :=
    ((hperm.map entryAt).map Prod.fst).nodup_iff.1 h.nodup
  have hgone : e.value.1 ∉ addrs (b'.data.flatten.map entryAt) := (List.nodup_cons.1 hnd').1
  have h₁ : Refines { t₁ with used := t₁.used - 1 } b' := by
    refine ⟨hsize.trans (h.size.trans hbsize.symm), ?_, ?_, fun j => ?_,
      (List.nodup_cons.1 hnd').2⟩
    · rw [hbused, ← h.used, ← hused]
    · rw [hbdata, List.length_modify, ← h.length]
      exact hlen
    · rw [hbdata, Binhash.getD_modify _ _ _ _ hlt]
      rcases eq_or_ne j k with rfl | hj
      · rw [if_pos rfl, herase, List.map_append]
        exact hchain₁
      · rw [if_neg hj]
        simp only [hget j hj]
        refine (h.chain j).congr fun x hx => hframe x fun hx' => ?_
        refine h.chain_ne hwf hj hx (y := x) ?_ rfl
        rw [hsplit, List.map_append, List.map_cons]
        simp only [List.map_append, List.mem_append, List.map_cons, List.mem_cons] at hx' ⊢
        exact hx'.imp_right Or.inr
  have hk' : binhashHash key t.size = k := by rw [h.size, hk]
  refine ⟨_, b', ?_, hdel, h₁.update hgone none, hwf', hbsize⟩
  refine bind_ok_iff.2 ⟨some e.value.1, hsearch, ?_⟩
  refine bind_ok_iff.2 ⟨ht, hread, ?_⟩
  rw [hk', hcontent]
  exact bind_ok_iff.2 ⟨t₁, hunlink, rfl⟩

/-- A key that is there is deleted from the memory as from the lists. -/
theorem Refines.delete (h : t.Refines b) (hwf : b.Wf)
    (hnd : (b.data.flatten.map (·.key)).Nodup) {e : BinhashInfo (ℕ × α)}
    (he : e ∈ b.data.flatten) {turns : ℕ} (hturns : t.used ≤ turns) :
    ∃ t' b', binhashDelete turns t e.key = .ok (t', e.value.2) ∧
      Nowra.binhashDelete (some b) e.key = .ok (some b') ∧ t'.Refines b' ∧ b'.size = b.size := by
  obtain ⟨t', b', hrun, hdel, href, -, hsize⟩ :=
    h.delete_first hwf (binhashFirst_eq_some hwf hnd he) hturns
  exact ⟨t', b', hrun, hdel, href, hsize⟩

/-- The loops over the table visit its addresses, chain after chain. -/
theorem Refines.walk (h : t.Refines b) (hwf : b.Wf) {turns : ℕ} (hturns : t.used ≤ turns)
    {σ : Type} (action : σ → ℕ → Except Fault σ) (ptr : σ) :
    binhashWalk turns (some t) action ptr =
      (addrs (b.data.flatten.map entryAt)).foldlM action ptr := by
  suffices hloop : ∀ {cs : List (List (BinhashInfo (ℕ × α)))} {hs : List (Option ℕ)} {ptr : σ},
      hs.length = cs.length → cs.flatten.length ≤ turns →
      (∀ i, Linked t.info (hs.getD i none) ((cs.getD i []).map entryAt)) →
      hs.foldlM (walkChain turns t action) ptr =
        (addrs (cs.flatten.map entryAt)).foldlM action ptr by
    have hsize : t.size = t.data.length := by rw [h.length, hwf.length, h.size]
    unfold binhashWalk
    simp only [hsize]
    rw [foldlM_head]
    exact hloop h.length (by rwa [← hwf.used, ← h.used]) fun i => (h.chain i).linked
  intro cs
  induction cs with
  | nil =>
    intro hs ptr hlen _ _
    obtain rfl := List.length_eq_zero_iff.1 hlen
    rfl
  | cons c cs ih =>
    intro hs ptr hlen hturns hl
    obtain _ | ⟨s, hs⟩ := hs
    · cases hlen
    rw [List.flatten_cons, List.length_append] at hturns
    have hc : (c.map entryAt).length ≤ turns := by
      rw [List.length_map]
      omega
    rw [List.flatten_cons, List.map_append, addrs, List.map_append, List.foldlM_append,
      List.foldlM_cons, ← walkChain_eq hc (hl 0)]
    refine congrArg (walkChain turns t action ptr s >>= ·) (funext fun ptr' => ?_)
    exact ih (Nat.succ.inj hlen) (by omega) fun i => hl (i + 1)

/-- `binhash_list` writes the addresses and a null pointer into as many slots. -/
theorem Refines.list (h : t.Refines b) (hwf : b.Wf) {turns : ℕ} (hturns : t.used ≤ turns)
    (hsmall : t.used < 2 ^ 27) : binhashList turns (some t) =
      .ok ((addrs (b.data.flatten.map entryAt)).map (fun a => some (some a)) ++ [some none]) := by
  have hlen : intOf (8 * (t.used + 1)) = 8 * (t.used + 1) := intOf_eq (by omega) (by omega)
  have hslots : (8 * ((t.used : ℤ) + 1)).toNat / 8 = t.used + 1 := by omega
  have hused : (addrs (b.data.flatten.map entryAt)).length = t.used := by
    rw [addrs, List.length_map, List.length_map, ← hwf.used, h.used]
  have hstore := @storeSlots_eq [] _ _ (hused.le.trans (Nat.le_succ t.used))
  rw [← h.walk hwf hturns, hused] at hstore
  unfold binhashList
  simp only [hlen, hslots]
  rw [if_neg (by omega)]
  generalize addrs (b.data.flatten.map entryAt) = xs at *
  have hlast : storeSlot (xs.map (fun a => some (some a)) ++ [none], xs.length) none =
      .ok (xs.map (fun a => some (some a)) ++ [some none], xs.length + 1) := by
    rw [storeSlot, if_pos (by simp)]
    simp [pure, Except.pure]
  rw [hused] at hlast
  refine bind_ok_iff.2 ⟨_, hstore, bind_ok_iff.2 ⟨(_, t.used + 1), ?_, rfl⟩⟩
  simpa using hlast

/-! ## The map -/

/-- The entries of the lists are the pairs of the map, which has the address and the value of an
entry for each key. -/
structure Represents (b : Binhash (ℕ × α)) (map : List (BitVec 8) → Option (ℕ × α)) : Prop where
  keys : (b.data.flatten.map (·.key)).Nodup
  mem_iff : ∀ key v, ⟨key, v⟩ ∈ b.data.flatten ↔ map key = some v

variable {map : List (BitVec 8) → Option (ℕ × α)}

theorem Represents.enter (h : Represents b map) (hwf : b.Wf) {key : List (BitVec 8)}
    (hkey : map key = none) (v : ℕ × α) :
    Represents (Nowra.binhashEnter b key v) (Function.update map key (some v)) := by
  obtain ⟨-, hperm⟩ := binhashEnter_perm hwf key v
  have hnew : key ∉ b.data.flatten.map (·.key) := by
    intro hmem
    obtain ⟨e, he, rfl⟩ := List.mem_map.1 hmem
    cases hkey.symm.trans ((h.mem_iff e.key e.value).1 he)
  refine ⟨(hperm.map (·.key)).nodup_iff.2 (List.nodup_cons.2 ⟨hnew, h.keys⟩), fun k w => ?_⟩
  rw [hperm.mem_iff, List.mem_cons, h.mem_iff]
  rcases eq_or_ne k key with rfl | hk
  · rw [Function.update_self, hkey]
    simp [eq_comm]
  · rw [Function.update_of_ne hk]
    simp [hk]

theorem Represents.delete (h : Represents b map) {b' : Binhash (ℕ × α)}
    {e : BinhashInfo (ℕ × α)} (hperm : b.data.flatten.Perm (e :: b'.data.flatten)) :
    Represents b' (Function.update map e.key none) := by
  have hkeys := (hperm.map (·.key)).nodup_iff.1 h.keys
  rw [List.map_cons, List.nodup_cons] at hkeys
  refine ⟨hkeys.2, fun k w => ?_⟩
  have hmem := (hperm.mem_iff (a := ⟨k, w⟩)).symm.trans (h.mem_iff k w)
  rw [List.mem_cons] at hmem
  rcases eq_or_ne k e.key with rfl | hk
  · rw [Function.update_self]
    refine iff_of_false (fun hw => hkeys.1 ?_) nofun
    exact List.mem_map_of_mem (f := (·.key)) hw
  · rw [Function.update_of_ne hk, ← hmem]
    refine (or_iff_right ?_).symm
    rintro rfl
    exact hk rfl

/-! ## Runs -/

end BinhashMem

/-- A table, and the map of what was entered and not deleted. -/
structure BinhashState (α : Type) where
  table : BinhashMem α
  map : List (BitVec 8) → Option (ℕ × α)

/-- A call that changes the table. -/
inductive BinhashLabel (α : Type)
  | enter (key : List (BitVec 8)) (value : α) (elm : ℕ)
  | delete (key : List (BitVec 8))

/-- A call that returns. A key that is entered is not empty and not there, and the table does not
grow to `2 ^ 27`. A key that is deleted is there. -/
inductive BinhashStep (s : BinhashState α) : BinhashLabel α → BinhashState α → Prop
  | enter {key : List (BitVec 8)} {value : α} {elm turns : ℕ} {t : BinhashMem α}
      (hkey : key ≠ []) (hnew : s.map key = none) (helm : s.table.info elm = none)
      (hsmall : s.table.size ≤ s.table.used → 2 * s.table.size ||| 1 < 2 ^ 27)
      (hturns : s.table.used ≤ turns)
      (h : BinhashMem.binhashEnter turns s.table key value elm = .ok t) :
      BinhashStep s (.enter key value elm) ⟨t, Function.update s.map key (some (elm, value))⟩
  | delete {key : List (BitVec 8)} {turns : ℕ} {x : BinhashMem α × α} (hkey : s.map key ≠ none)
      (hturns : s.table.used ≤ turns) (h : BinhashMem.binhashDelete turns s.table key = .ok x) :
      BinhashStep s (.delete key) ⟨x.1, Function.update s.map key none⟩

/-- Any sequence of calls on a new table. -/
def binhashSystem (α : Type) : LTS (BinhashState α) (BinhashLabel α) where
  init s := ∃ size : ℤ, size < 2 ^ 27 ∧ BinhashMem.binhashCreate α size = .ok s.table ∧
    s.map = fun _ => none
  step := BinhashStep

/-- The memory has the lists of a well-formed table, which make up the map. -/
structure BinhashState.Inv (s : BinhashState α) : Prop where
  lists : ∃ b, s.table.Refines b ∧ b.Wf ∧ BinhashMem.Represents b s.map
  room : s.table.used ≤ s.table.size
  small : s.table.size < 2 ^ 27

namespace BinhashState

variable {s : BinhashState α}

theorem size_foldl_link {l : List (BinhashInfo (ℕ × α))} {b : Binhash (ℕ × α)} :
    (l.foldl binhashLink b).size = b.size := by
  induction l generalizing b with
  | nil => rfl
  | cons e l ih => exact ih

/-- A new table is empty. -/
theorem binhashCreate_eq (α : Type) {size : ℤ} (hsize : size < 2 ^ 27) :
    ∃ n, n ||| 1 < 2 ^ 27 ∧ BinhashMem.binhashCreate α size =
      .ok ⟨n ||| 1, 0, List.replicate (n ||| 1) none, fun _ => none⟩ := by
  obtain ⟨n, hn⟩ : ∃ n, (if size < 13 then 13 else size.toNat) = n := ⟨_, rfl⟩
  have hlt : n < 2 ^ 27 := by
    rw [← hn]
    split <;> omega
  have hodd : n ||| 1 < 2 ^ 27 := Nat.or_lt_two_pow hlt (by decide)
  refine ⟨n, hodd, ?_⟩
  rw [BinhashMem.binhashCreate, hn]
  exact BinhashMem.binhashSize_eq (hodd.trans (by decide))

theorem inv_init (h : (binhashSystem α).init s) : s.Inv := by
  obtain ⟨size, hsize, hcreate, hmap⟩ := h
  obtain ⟨n, hodd, heq⟩ := binhashCreate_eq α hsize
  obtain ⟨table, map⟩ := s
  obtain rfl := Except.ok.inj (heq.symm.trans hcreate)
  obtain rfl : map = _ := hmap
  refine ⟨⟨binhashSize (ℕ × α) n, BinhashMem.refines_empty n _, Binhash.wf_binhashSize _ n, ?_, ?_⟩,
    Nat.zero_le _, hodd⟩
  · simp [binhashSize]
  · simp [binhashSize]

/-- The room in a table after a pair was entered. -/
theorem enter_room {b : Binhash (ℕ × α)} (hwf : b.Wf) (hroom : b.used ≤ b.size)
    (hsmall : b.size < 2 ^ 27) (hgrow : b.size ≤ b.used → 2 * b.size ||| 1 < 2 ^ 27)
    (key : List (BitVec 8)) (v : ℕ × α) :
    (binhashEnter b key v).used ≤ (binhashEnter b key v).size ∧
      (binhashEnter b key v).size < 2 ^ 27 := by
  obtain ⟨hwf', hperm⟩ := binhashEnter_perm hwf key v
  have hused : (binhashEnter b key v).used = b.used + 1 := by
    rw [hwf'.used, hperm.length_eq, List.length_cons, hwf.used]
  have hsize : (binhashEnter b key v).size = if b.used ≥ b.size then 2 * b.size ||| 1
      else b.size := by
    unfold binhashEnter
    split
    · exact size_foldl_link
    · rfl
  have hle : 2 * b.size ≤ 2 * b.size ||| 1 := Nat.left_le_or
  have hpos := hwf.size_pos
  rw [hused, hsize]
  split
  · exact ⟨by omega, hgrow (by omega)⟩
  · exact ⟨by omega, hsmall⟩

theorem Inv.step {t : BinhashState α} {a : BinhashLabel α} (h : s.Inv)
    (hst : (binhashSystem α).step s a t) : t.Inv := by
  obtain ⟨b, href, hwf, hrep⟩ := h.lists
  have hroom : b.used ≤ b.size := href.used ▸ href.size ▸ h.room
  have hsmall : b.size < 2 ^ 27 := href.size ▸ h.small
  cases hst with
  | @enter key value elm turns t hkey hnew helm hgrow hturns hrun =>
    have hgrow' := fun hfull => (hgrow hfull).trans (show 2 ^ 27 < 2 ^ 28 by decide)
    obtain ⟨t', hrun', href'⟩ := href.enter hwf hkey value helm hgrow' hturns
    obtain rfl := Except.ok.inj (hrun.symm.trans hrun')
    rw [href.size, href.used] at hgrow
    have hsize := enter_room hwf hroom hsmall hgrow key (elm, value)
    rw [← href'.used, ← href'.size] at hsize
    exact ⟨⟨_, href', (binhashEnter_perm hwf key _).1, hrep.enter hwf hnew _⟩, hsize.1, hsize.2⟩
  | @delete key turns x hkey hturns hrun =>
    obtain ⟨v, hv⟩ := Option.ne_none_iff_exists'.1 hkey
    have hmem := (hrep.mem_iff key v).2 hv
    obtain ⟨t', b', hrun', hdel, href', hsize'⟩ := href.delete hwf hrep.keys hmem hturns
    obtain rfl := Except.ok.inj (hrun.symm.trans hrun')
    obtain ⟨b'', hdel', hwf', hperm⟩ := binhashDelete_perm hwf hrep.keys hmem
    obtain rfl := Option.some.inj (Except.ok.inj (hdel.symm.trans hdel'))
    have hlen := hperm.length_eq
    rw [List.length_cons, ← hwf.used, ← hwf'.used] at hlen
    refine ⟨⟨b', href', hwf', hrep.delete hperm⟩, ?_, ?_⟩
    · rw [href'.used, href'.size]
      omega
    · rw [href'.size]
      omega

theorem inv_of_reach (h : (binhashSystem α).Reach s) : s.Inv :=
  h.invariant (fun _ => inv_init) fun _ _ _ hs hst => hs.step hst

end BinhashState

namespace BinhashMem

variable {t : BinhashMem α} {b : Binhash (ℕ × α)} {map : List (BitVec 8) → Option (ℕ × α)}

theorem Represents.find (h : Represents b map) (hwf : b.Wf) (key : List (BitVec 8)) :
    Nowra.binhashFind (some b) key = map key :=
  Option.ext fun v => by rw [binhashFind_eq_some hwf h.keys, h.mem_iff]

/-- A key is located at the address that the map has for it. -/
theorem Represents.locate (h : Represents b map) (href : t.Refines b) (hwf : b.Wf)
    (key : List (BitVec 8)) {turns : ℕ} (hturns : t.used ≤ turns) :
    binhashLocate turns (some t) key = .ok ((map key).map Prod.fst) := by
  have hsearch := href.search hwf key hturns
  rwa [h.find hwf] at hsearch

/-- A key has the value that the map has for it. -/
theorem Represents.value [Zero α] (h : Represents b map) (href : t.Refines b) (hwf : b.Wf)
    (key : List (BitVec 8)) {turns : ℕ} (hturns : t.used ≤ turns) :
    binhashFind turns (some t) key = .ok ((map key).elim 0 Prod.snd) := by
  have hlocate := h.locate href hwf key hturns
  refine bind_ok_iff.2 ⟨_, hlocate, ?_⟩
  cases hkey : map key with
  | none => rfl
  | some v =>
    obtain ⟨n, p, hnode⟩ := href.info hwf ((h.mem_iff key v).2 hkey)
    exact bind_ok_iff.2 ⟨_, read_eq hnode, rfl⟩

/-- There are as many keys in the map as entries in the lists. -/
theorem Represents.ncard (h : Represents b map) :
    {key | map key ≠ none}.ncard = b.data.flatten.length := by
  have hset : {key | map key ≠ none} = ((b.data.flatten.map (·.key)).toFinset : Set _) := by
    ext key
    simp only [Set.mem_ofPred_eq, List.coe_toFinset, List.mem_map]
    constructor
    · intro hkey
      obtain ⟨v, hv⟩ := Option.ne_none_iff_exists'.1 hkey
      exact ⟨_, (h.mem_iff key v).2 hv, rfl⟩
    · rintro ⟨e, he, rfl⟩
      rw [(h.mem_iff e.key e.value).1 he]
      exact Option.some_ne_none _
  rw [hset, Set.ncard_coe_finset, List.toFinset_card_of_nodup h.keys, List.length_map]

/-- The addresses of the entries are those in the map. -/
theorem Represents.mem_addrs (h : Represents b map) {a : ℕ} :
    a ∈ addrs (b.data.flatten.map entryAt) ↔ ∃ key value, map key = some (a, value) := by
  rw [addrs, List.map_map]
  constructor
  · intro ha
    obtain ⟨e, he, rfl⟩ := List.mem_map.1 ha
    exact ⟨e.key, e.value.2, (h.mem_iff _ _).1 he⟩
  · rintro ⟨key, value, hv⟩
    exact List.mem_map.2 ⟨_, (h.mem_iff key _).2 hv, rfl⟩

end BinhashMem

/-- In every state that calls on a new table lead to, a key is found and located as the map says,
the entries are in the chains of their hashes with links in both directions, `used` is the number
of keys, the loops visit each entry once, and a call that may be made returns. -/
theorem binhash_refines [Zero α] :
    (∀ size : ℤ, size < 2 ^ 27 → ∃ t, BinhashMem.binhashCreate α size = .ok t ∧
      (binhashSystem α).init ⟨t, fun _ => none⟩) ∧
    ∀ s, (binhashSystem α).Reach s →
      (∀ key turns, key ≠ [] → s.table.used ≤ turns →
        BinhashMem.binhashFind turns (some s.table) key = .ok ((s.map key).elim 0 Prod.snd) ∧
        BinhashMem.binhashLocate turns (some s.table) key = .ok ((s.map key).map Prod.fst)) ∧
      (∃ b, s.table.Refines b ∧ b.Wf ∧ BinhashMem.Represents b s.map) ∧
      s.table.used = {key | s.map key ≠ none}.ncard ∧
      (∃ members : List ℕ, members.Nodup ∧ members.length = s.table.used ∧
        (∀ a, a ∈ members ↔ ∃ key value, s.map key = some (a, value)) ∧
        ∀ turns, s.table.used ≤ turns →
          BinhashMem.binhashList turns (some s.table) =
            .ok (members.map (fun a => some (some a)) ++ [some none]) ∧
          ∀ {σ : Type} (action : σ → ℕ → Except Fault σ) (ptr : σ),
            BinhashMem.binhashWalk turns (some s.table) action ptr = members.foldlM action ptr) ∧
      (∀ key value elm turns, key ≠ [] → s.map key = none → s.table.info elm = none →
        (s.table.size ≤ s.table.used → 2 * s.table.size ||| 1 < 2 ^ 27) → s.table.used ≤ turns →
        ∃ t, BinhashMem.binhashEnter turns s.table key value elm = .ok t) ∧
      ∀ key a value turns, s.map key = some (a, value) → s.table.used ≤ turns →
        ∃ t, BinhashMem.binhashDelete turns s.table key = .ok (t, value) := by
  refine ⟨fun size hsize => ?_, fun s h => ?_⟩
  · obtain ⟨n, -, hcreate⟩ := BinhashState.binhashCreate_eq α hsize
    exact ⟨_, hcreate, size, hsize, hcreate, rfl⟩
  have hinv := BinhashState.inv_of_reach h
  obtain ⟨b, href, hwf, hrep⟩ := hinv.lists
  have hused : s.table.used = b.data.flatten.length := href.used.trans hwf.used
  refine ⟨fun key turns _ hturns => ?_, ⟨b, href, hwf, hrep⟩, ?_, ?_, ?_, ?_⟩
  · exact ⟨hrep.value href hwf key hturns, hrep.locate href hwf key hturns⟩
  · rw [hrep.ncard, hused]
  · refine ⟨addrs (b.data.flatten.map BinhashMem.entryAt), href.nodup, ?_, fun a => hrep.mem_addrs,
      fun turns hturns => ⟨?_, href.walk hwf hturns⟩⟩
    · rw [addrs, List.length_map, List.length_map, hused]
    · exact href.list hwf hturns (hinv.room.trans_lt hinv.small)
  · intro key value elm turns hkey _ helm hsmall hturns
    have hsmall' := fun hfull => (hsmall hfull).trans (show 2 ^ 27 < 2 ^ 28 by decide)
    obtain ⟨t, hrun, -⟩ := href.enter hwf hkey value helm hsmall' hturns
    exact ⟨t, hrun⟩
  · intro key a value turns hkey hturns
    obtain ⟨t, b', hrun, -⟩ := href.delete hwf hrep.keys ((hrep.mem_iff key _).2 hkey) hturns
    exact ⟨t, hrun⟩

/-- A call that may be made. -/
def binhashCall (s : BinhashState ℕ) : BinhashLabel ℕ → Option (BinhashState ℕ)
  | .enter key value elm =>
    if key ≠ [] ∧ s.map key = none ∧ (s.table.info elm).isNone ∧
        (s.table.size ≤ s.table.used → 2 * s.table.size ||| 1 < 2 ^ 27) then
      (BinhashMem.binhashEnter s.table.used s.table key value elm).toOption.map
        (⟨·, Function.update s.map key (some (elm, value))⟩)
    else none
  | .delete key =>
    if s.map key = none then none
    else (BinhashMem.binhashDelete s.table.used s.table key).toOption.map
      (⟨·.1, Function.update s.map key none⟩)

theorem step_of_binhashCall {s t : BinhashState ℕ} {a : BinhashLabel ℕ}
    (h : binhashCall s a = some t) : (binhashSystem ℕ).step s a t := by
  cases a with
  | enter key value elm =>
    simp only [binhashCall] at h
    split at h
    · rename_i hok
      obtain ⟨t, ht, rfl⟩ := Option.map_eq_some_iff.1 h
      exact .enter hok.1 hok.2.1 (Option.isNone_iff_eq_none.1 hok.2.2.1) hok.2.2.2 le_rfl
        (toOption_eq_some ht)
    · cases h
  | delete key =>
    simp only [binhashCall] at h
    split at h
    · cases h
    · obtain ⟨x, hx, rfl⟩ := Option.map_eq_some_iff.1 h
      exact .delete ‹_› le_rfl (toOption_eq_some hx)

/-- Fourteen keys are entered in a new table, which grows before the last, and one is deleted. The
others are found, and one by one in the list. -/
theorem binhash_refines_grown : ∃ s : BinhashState ℕ, (binhashSystem ℕ).Reach s ∧
    s.table.size = 27 ∧ s.table.used = 13 ∧
    BinhashMem.binhashFind 13 (some s.table) [5] = .ok 25 ∧
    BinhashMem.binhashLocate 13 (some s.table) [13] = .ok (some 13) ∧
    BinhashMem.binhashFind 13 (some s.table) [3] = .ok 0 ∧
    ∃ members : List ℕ, members.Nodup ∧ members.length = 13 ∧
      BinhashMem.binhashList 13 (some s.table) =
        .ok (members.map (fun a => some (some a)) ++ [some none]) := by
  let calls := (List.range 14).map (fun i => BinhashLabel.enter [BitVec.ofNat 8 i] (i + 20) i) ++
    [.delete [3]]
  have hrun : ((BinhashMem.binhashCreate ℕ 0).toOption.any fun t =>
      (calls.foldlM binhashCall ⟨t, fun _ => none⟩).any fun s =>
        s.table.size = 27 ∧ s.table.used = 13 ∧ s.map [5] = some (5, 25) ∧
          s.map [13] = some (13, 33) ∧ s.map [3] = none) = true := by
    decide +kernel
  obtain ⟨t, hcreate, hrun⟩ := (Option.any_eq_true _ _).1 hrun
  obtain ⟨s, hs, hobs⟩ := (Option.any_eq_true _ _).1 hrun
  obtain ⟨hsize, hused, hfive, hlast, hthree⟩ := of_decide_eq_true hobs
  obtain ⟨tr, hp, -⟩ := LTS.Path.of_foldlM (fun _ _ _ => step_of_binhashCall) hs
  have hreach : (binhashSystem ℕ).Reach s :=
    ⟨tr, _, ⟨0, by decide, toOption_eq_some hcreate, rfl⟩, hp⟩
  obtain ⟨hfind, -, -, ⟨members, hnodup, hlen, -, hlist⟩, -⟩ := binhash_refines.2 s hreach
  have hfind₅ := (hfind [5] 13 (by decide) hused.le).1
  have hlocate := (hfind [13] 13 (by decide) hused.le).2
  have hfind₃ := (hfind [3] 13 (by decide) hused.le).1
  rw [hfive] at hfind₅
  rw [hlast] at hlocate
  rw [hthree] at hfind₃
  exact ⟨s, hreach, hsize, hused, hfind₅, hlocate, hfind₃, members, hnodup, hlen.trans hused,
    (hlist 13 hused.le).1⟩

end Nowra
