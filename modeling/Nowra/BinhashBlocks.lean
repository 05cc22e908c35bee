import Nowra.BinhashMem

/-!
# The blocks of a hash table

`binhash.c` on the allocator of `mymalloc.c` : a block for the table, one for the array of the
heads, and for each entry one for the entry and one for the copy of its key. `binhashGrow` gets a
new array and gives the old one back.

`Heap.Holds` says which blocks an owner has beside those of the rest of the program, and what an
allocation and a release do to that. The rest of the program goes on to allocate, write and
release blocks of its own (`OtherStep`).

After any sequence of calls, and whatever the rest of the program did in between, `binhashFree`
succeeds. It leaves the heap as it would be if there had been no table, and each value that was
entered has been given to `free_fn` once (`binhashFree_releases`).
-/

namespace Nowra

/-! ## What an owner holds -/

namespace Heap

/-- The blocks at `ptrs` are there beside the blocks `other`, and there are no more. -/
structure Holds (h : Heap) (other : ℕ → Option MBlock) (ptrs : List Ptr) : Prop where
  owns : h.Owns ptrs
  unused : ∀ id, h.next ≤ id → h.block id = none
  same : ∀ id, .block id ∉ ptrs → h.block id = other id
  apart : ∀ id, .block id ∈ ptrs → other id = none

/-- A step of the rest of the program : it allocates a block, writes to one of its own or releases
it. -/
inductive OtherStep (h : Heap) (other : ℕ → Option MBlock) :
    Heap → (ℕ → Option MBlock) → Prop
  | malloc {r : Ptr × Heap} (hr : h.Fresh r) :
      OtherStep h other r.2 (Function.update other h.next (r.2.block h.next))
  | write {id : ℕ} (b : MBlock) (hid : other id ≠ none) :
      OtherStep h other { h with block := Function.update h.block id (some b) }
        (Function.update other id (some b))
  | free {id : ℕ} (hid : other id ≠ none) :
      OtherStep h other (h.free (.block id)) (Function.update other id none)

variable {h : Heap} {other : ℕ → Option MBlock} {ptr : Ptr} {ptrs ptrs' : List Ptr}

theorem holds_nil (hunused : ∀ id, h.next ≤ id → h.block id = none) : h.Holds h.block [] where
  owns := owns_nil h
  unused := hunused
  same _ _ := rfl
  apart _ hid := absurd hid List.not_mem_nil

theorem Holds.perm (hh : h.Holds other ptrs) (hp : ptrs.Perm ptrs') : h.Holds other ptrs' where
  owns := hh.owns.perm hp
  unused := hh.unused
  same id hid := hh.same id fun hmem => hid (hp.mem_iff.1 hmem)
  apart id hid := hh.apart id (hp.mem_iff.2 hid)

/-- An owner that holds nothing leaves the other blocks. -/
theorem Holds.block_eq (hh : h.Holds other []) : h.block = other :=
  funext fun id => hh.same id List.not_mem_nil

theorem Holds.other_unused (hh : h.Holds other ptrs) {id : ℕ} (hid : h.next ≤ id) :
    other id = none := by
  by_cases hmem : .block id ∈ ptrs
  · exact hh.apart id hmem
  · exact (hh.same id hmem).symm.trans (hh.unused id hid)

/-- Blocks that are held stay as they are when another one is allocated. -/
theorem Holds.header_fresh (hh : h.Holds other ptrs) {r : Ptr × Heap} (hr : h.Fresh r)
    (hmem : ptr ∈ ptrs) : r.2.header ptr = h.header ptr := by
  obtain ⟨-, b, -, heap⟩ := hr
  obtain ⟨id, c, rfl, hid, -, -⟩ := hh.owns.valid ptr hmem
  rw [heap]
  exact Function.update_of_ne (Nat.ne_of_lt hid) _ _

/-- A new block joins those that are held. -/
theorem Holds.malloc (hh : h.Holds other ptrs) {r : Ptr × Heap} (hr : h.Fresh r) :
    r.2.Holds other (r.1 :: ptrs) := by
  have howns := hh.owns.fresh hr
  obtain ⟨hptr, b, hb, heap⟩ := hr
  rw [hptr, heap] at howns ⊢
  refine ⟨howns, fun id hid => ?_, fun id hid => ?_, fun id hid => ?_⟩
  · have hne : id ≠ h.next := Nat.ne_of_gt hid
    exact (Function.update_of_ne hne _ _).trans (hh.unused id (Nat.le_of_succ_le hid))
  · rw [List.mem_cons, not_or] at hid
    have hne : id ≠ h.next := fun he => hid.1 (congrArg Ptr.block he)
    exact (Function.update_of_ne hne _ _).trans (hh.same id hid.2)
  · rcases List.mem_cons.1 hid with he | hid
    · exact Ptr.block.inj he ▸ hh.other_unused le_rfl
    · exact hh.apart id hid

/-- A block that is held passes the check of `myfree`, and is held no more. -/
theorem Holds.free (hh : h.Holds other (ptr :: ptrs)) :
    myfree h ptr = .ok (h.free ptr) ∧ (h.free ptr).Holds other ptrs := by
  obtain ⟨hfree, howns⟩ := hh.owns.myfree
  obtain ⟨id', -, rfl, -⟩ := hh.owns.valid ptr List.mem_cons_self
  refine ⟨hfree, howns, fun id hid => ?_, fun id hid => ?_, fun id hid => ?_⟩
  · rcases eq_or_ne id id' with rfl | hne
    · exact Function.update_self ..
    · exact (Function.update_of_ne hne _ _).trans (hh.unused id hid)
  · rcases eq_or_ne id id' with rfl | hne
    · exact (Function.update_self ..).trans (hh.apart id List.mem_cons_self).symm
    · refine (Function.update_of_ne hne _ _).trans (hh.same id fun hmem => ?_)
      rcases List.mem_cons.1 hmem with he | hmem
      · exact hne (Ptr.block.inj he)
      · exact hid hmem
  · exact hh.apart id (List.mem_cons_of_mem _ hid)

/-- Blocks that are held stay as they are when another one is released. -/
theorem Holds.header_free (hh : h.Holds other (ptr :: ptrs)) {p : Ptr} (hmem : p ∈ ptrs) :
    (h.free ptr).header p = h.header p := by
  obtain ⟨id', -, rfl, -⟩ := hh.owns.valid ptr List.mem_cons_self
  obtain ⟨id, -, rfl, -⟩ := hh.owns.valid p (List.mem_cons_of_mem _ hmem)
  refine Function.update_of_ne ?_ _ _
  rintro rfl
  exact (List.nodup_cons.1 hh.owns.nodup).1 hmem

/-- A block that is not held is written to on both sides. -/
theorem Holds.update (hh : h.Holds other ptrs) {id next : ℕ} {c : Option MBlock}
    (hid : .block id ∉ ptrs) (hnext : h.next ≤ next) (hlt : id < next) :
    (⟨Function.update h.block id c, next⟩ : Heap).Holds (Function.update other id c) ptrs ∧
      ∀ p ∈ ptrs, (⟨Function.update h.block id c, next⟩ : Heap).header p = h.header p := by
  have hne : ∀ i, .block i ∈ ptrs → i ≠ id := by
    rintro i hi rfl
    exact hid hi
  refine ⟨⟨⟨fun p hp => ?_, hh.owns.nodup⟩, fun i hi => ?_, fun i hi => ?_, fun i hi => ?_⟩,
    fun p hp => ?_⟩
  · obtain ⟨i, b, rfl, hi, hb, hv⟩ := hh.owns.valid p hp
    exact ⟨i, b, rfl, hi.trans_le hnext, (Function.update_of_ne (hne i hp) _ _).trans hb, hv⟩
  · exact (Function.update_of_ne (Nat.ne_of_gt (hlt.trans_le hi)) _ _).trans
      (hh.unused i (hnext.trans hi))
  · rcases eq_or_ne i id with rfl | hi'
    · change Function.update h.block i c i = Function.update other i c i
      rw [Function.update_self, Function.update_self]
    · exact (Function.update_of_ne hi' _ _).trans
        ((hh.same i hi).trans (Function.update_of_ne hi' _ _).symm)
  · exact (Function.update_of_ne (hne i hi) _ _).trans (hh.apart i hi)
  · obtain ⟨i, b, rfl, -, -, -⟩ := hh.owns.valid p hp
    exact Function.update_of_ne (hne i hp) _ _

/-- The rest of the program does not touch what is held. -/
theorem Holds.others (hh : h.Holds other ptrs) {h' : Heap} {other' : ℕ → Option MBlock}
    (hst : OtherStep h other h' other') :
    h'.Holds other' ptrs ∧ ∀ p ∈ ptrs, h'.header p = h.header p := by
  have hown : ∀ {id : ℕ}, other id ≠ none → .block id ∉ ptrs ∧ id < h.next := fun hid =>
    ⟨fun hmem => hid (hh.apart _ hmem), Nat.lt_of_not_le fun hle => hid (hh.other_unused hle)⟩
  cases hst with
  | @malloc r hr =>
    obtain ⟨-, b, -, heap⟩ := hr
    have hself : r.2.block h.next = some b := heap ▸ Function.update_self ..
    rw [hself, heap]
    refine hh.update (fun hmem => ?_) (Nat.le_succ _) (Nat.lt_succ_self _)
    obtain ⟨i, -, he, hi, -⟩ := hh.owns.valid _ hmem
    exact Nat.lt_irrefl _ (Ptr.block.inj he ▸ hi)
  | write b hid => exact hh.update (hown hid).1 le_rfl (hown hid).2
  | free hid => exact hh.update (hown hid).1 le_rfl (hown hid).2

end Heap

/-! ## The operations -/

variable {α : Type}

/-- A table with its blocks. -/
structure BinhashBlocks (α : Type) where
  /-- The table itself. -/
  self : Ptr
  data : Ptr
  /-- The copy of the key, for each entry. -/
  key : ℕ → Ptr
  table : BinhashMem α

namespace BinhashBlocks

/-- The entry that a pointer points to. -/
def entryOf (ptr : Ptr) : Except Fault ℕ :=
  match ptr with
  | .null | .emptyString => throw .outside
  | .block id => pure id

/-- Allocate the array of the heads. -/
def binhashSize (h : Heap) (table : BinhashMem α) (size : ℕ) :
    Except Fault (Ptr × BinhashMem α × Heap) := do
  let (data, h) ← mymalloc h (intOf (8 * (size ||| 1 : ℕ)))
  let table ← table.binhashSize size
  pure (data, table, h)

/-- Create the initial table. -/
def binhashCreate (α : Type) (h : Heap) (size : ℤ) : Except Fault (BinhashBlocks α × Heap) := do
  let (self, h) ← mymalloc h 16
  let size := if size < 13 then 13 else size.toNat
  let (data, table, h) ← binhashSize h ⟨0, 0, [], fun _ => none⟩ size
  pure (⟨self, data, fun _ => .null, table⟩, h)

/-- Extend the table. -/
def binhashGrow (turns : ℕ) (h : Heap) (t : BinhashBlocks α) :
    Except Fault (BinhashBlocks α × Heap) := do
  let (data, h) ← mymalloc h (intOf (8 * (unsignedOf (2 * t.table.size) ||| 1 : ℕ)))
  let table ← t.table.binhashGrow turns
  let h ← myfree h t.data
  pure (⟨t.self, data, t.key, table⟩, h)

/-- Enter a pair. -/
def binhashEnter (turns : ℕ) (h : Heap) (t : BinhashBlocks α) (key : Bytes) (value : α) :
    Except Fault (ℕ × BinhashBlocks α × Heap) := do
  let (t, h) ← (if t.table.used ≥ t.table.size then binhashGrow turns h t else pure (t, h))
  let (ht, h) ← mymalloc h 40
  let elm ← entryOf ht
  let (copy, h) ← mymemdup h (some key)
  let info := Function.update t.table.info elm (some ⟨⟨key, value⟩, none, none⟩)
  let table ← BinhashMem.binhashLink { t.table with info } elm
  pure (elm, ⟨t.self, t.data, Function.update t.key elm copy, table⟩, h)

/-- Delete one entry. The result has the value that is given to `free_fn`. -/
def binhashDelete (turns : ℕ) (h : Heap) (t : BinhashBlocks α) (key : Bytes) :
    Except Fault (α × BinhashBlocks α × Heap) := do
  let i := binhashHash key t.table.size
  match ← (do BinhashMem.search turns t.table (← BinhashMem.head t.table.data i) key) with
  | none => throw (.panic (.unknownKey key))
  | some a => do
    let ht ← t.table.read a
    let table ← t.table.unlink i ht
    let h ← myfree h (t.key a)
    let h ← myfree h (.block a)
    let table := { table with used := table.used - 1, info := Function.update table.info a none }
    pure (ht.content.value, { t with table }, h)

/-- The loop of `binhash_free` over a chain. The values are given to `free_fn`. -/
def freeChain (turns : ℕ) (t : BinhashBlocks α) (h : Heap) (values : List α) (ht : Option ℕ) :
    Except Fault (BinhashBlocks α × Heap × List α) :=
  match ht with
  | none => pure (t, h, values)
  | some a =>
    match turns with
    | 0 => throw .outside
    | turns + 1 => do
      let e ← t.table.read a
      let h ← myfree h (t.key a)
      let h ← myfree h (.block a)
      let table := { t.table with info := Function.update t.table.info a none }
      freeChain turns { t with table } h (values ++ [e.content.value]) e.next

/-- Destroy the table. The result has the values that are given to `free_fn`. -/
def binhashFree (turns : ℕ) (h : Heap) (t : Option (BinhashBlocks α)) :
    Except Fault (Heap × List α) :=
  match t with
  | none => pure (h, [])
  | some t => do
    let (_, h, values) ← (List.range t.table.size).foldlM
      (fun s i => do freeChain turns s.1 s.2.1 s.2.2 (← BinhashMem.head t.table.data i)) (t, h, [])
    let h ← myfree h t.data
    let h ← myfree h t.self
    pure (h, values)

/-! ## What a table holds -/

/-- The blocks of the entries. -/
def entryPtrs (key : ℕ → Ptr) (l : List (BinhashInfo (ℕ × α))) : List Ptr :=
  l.flatMap fun e => [key e.value.1, .block e.value.1]

/-- The blocks of a table with the lists `b`. -/
def ptrs (t : BinhashBlocks α) (b : Binhash (ℕ × α)) : List Ptr :=
  t.self :: t.data :: entryPtrs t.key b.data.flatten

/-- The heap has the lists `b` in memory, the blocks of the table, and the keys in the copies. -/
structure Stored (h : Heap) (other : ℕ → Option MBlock) (t : BinhashBlocks α)
    (b : Binhash (ℕ × α)) : Prop where
  refines : t.table.Refines b
  wf : b.Wf
  small : t.table.size < 2 ^ 28
  holds : h.Holds other (t.ptrs b)
  copies : ∀ e ∈ b.data.flatten, ∃ c, h.header (t.key e.value.1) = some c ∧ c.payload = e.key

variable {h : Heap} {other : ℕ → Option MBlock} {t : BinhashBlocks α} {b b' : Binhash (ℕ × α)}

theorem mem_entryPtrs (key : ℕ → Ptr) {l : List (BinhashInfo (ℕ × α))}
    {e : BinhashInfo (ℕ × α)} (he : e ∈ l) :
    key e.value.1 ∈ entryPtrs key l ∧ .block e.value.1 ∈ entryPtrs key l :=
  ⟨List.mem_flatMap.2 ⟨e, he, by simp⟩, List.mem_flatMap.2 ⟨e, he, by simp⟩⟩

theorem entryPtrs_perm {key : ℕ → Ptr} {l l' : List (BinhashInfo (ℕ × α))} (hp : l.Perm l') :
    (entryPtrs key l).Perm (entryPtrs key l') :=
  hp.flatMap_right _

/-- The rest of the program does not touch a table. -/
theorem Stored.others (hs : Stored h other t b) {h' : Heap} {other' : ℕ → Option MBlock}
    (hst : Heap.OtherStep h other h' other') : Stored h' other' t b := by
  obtain ⟨hholds, hframe⟩ := hs.holds.others hst
  refine ⟨hs.refines, hs.wf, hs.small, hholds, fun e he => ?_⟩
  rw [hframe _ (List.mem_cons_of_mem _ (List.mem_cons_of_mem _ (mem_entryPtrs t.key he).1))]
  exact hs.copies e he

/-- An array that was allocated and filled is not too large. -/
theorem size_of_ok {table table' : BinhashMem α} {size : ℕ}
    (hok : table.binhashSize size = .ok table') : size ||| 1 < 2 ^ 28 := by
  unfold BinhashMem.binhashSize at hok
  simp only at hok
  have hmax : intOf (8 * (size ||| 1 : ℕ)) < 2 ^ 31 := by
    unfold intOf
    omega
  by_contra hlarge
  rw [if_pos (show intOf (8 * (size ||| 1 : ℕ)) < 8 * (size ||| 1 : ℕ) by omega)] at hok
  split at hok <;> cases hok

/-- A table that grows gets a new array and gives the old one back. -/
theorem Stored.grow (hs : Stored h other t b) {turns : ℕ} (hturns : t.table.used ≤ turns)
    {r : BinhashBlocks α × Heap} (hr : binhashGrow turns h t = .ok r) :
    Stored r.2 other r.1 (Nowra.binhashGrow b) := by
  obtain ⟨⟨data, h₁⟩, hmalloc, hr⟩ := bind_ok_iff.1 hr
  obtain ⟨table, hgrow, hr⟩ := bind_ok_iff.1 hr
  obtain ⟨h₂, hfree, hr⟩ := bind_ok_iff.1 hr
  obtain rfl := Except.ok.inj hr
  have hsmall := hs.small
  have hsize : unsignedOf (2 * t.table.size) = 2 * t.table.size := by
    unfold unsignedOf
    omega
  have hsmall' : 2 * t.table.size ||| 1 < 2 ^ 28 := by
    obtain ⟨table', hok, -⟩ := bind_ok_iff.1 hgrow
    rw [hsize] at hok
    exact size_of_ok hok
  obtain ⟨table', hgrow', hrefines⟩ := hs.refines.grow hs.wf hsmall' hturns
  obtain rfl := Except.ok.inj (hgrow'.symm.trans hgrow)
  obtain ⟨hwf, hperm⟩ := Binhash.Wf.grow (t := b)
  -- the new array, then the old one
  have hfresh := mymalloc_ok hmalloc
  have hholds := (hs.holds.malloc hfresh).perm
    ((List.reverse_perm [t.data, t.self, data]).append (entryPtrs_perm hperm.symm))
  obtain ⟨hfree', hholds'⟩ := hholds.free
  obtain rfl := Except.ok.inj (hfree'.symm.trans hfree)
  refine ⟨hrefines, hwf, ?_, hholds', fun e he => ?_⟩
  · have hsize' : (Nowra.binhashGrow b).size = 2 * b.size ||| 1 := BinhashState.size_foldl_link
    rwa [hrefines.size, hsize', ← hs.refines.size]
  · have hmem := (mem_entryPtrs t.key he).1
    have hcopy := (mem_entryPtrs t.key (hperm.mem_iff.1 he)).1
    rw [hholds.header_free (List.mem_cons_of_mem _ (List.mem_cons_of_mem _ hmem)),
      hs.holds.header_fresh hfresh (List.mem_cons_of_mem _ (List.mem_cons_of_mem _ hcopy))]
    exact hs.copies e (hperm.mem_iff.1 he)

/-- A copy of memory is a new block with the bytes. -/
theorem mymemdup_ok {bytes : Bytes} {r : Ptr × Heap} (hr : mymemdup h (some bytes) = .ok r) :
    h.Fresh r ∧ ∃ c, r.2.header r.1 = some c ∧ c.payload = bytes := by
  refine ⟨mallocStore_ok hr, ?_⟩
  have heq := mallocStore_eq h (intOf bytes.length) bytes
  rw [show mallocStore h (intOf bytes.length) bytes = .ok r from hr] at heq
  split at heq
  · cases heq
  split at heq
  · cases heq
  rename_i hlen
  obtain rfl := Except.ok.inj heq
  have hlen' : (intOf bytes.length).toNat = bytes.length := by
    unfold intOf at hlen ⊢
    omega
  refine ⟨_, Function.update_self .., ?_⟩
  rw [hlen', List.drop_eq_nil_of_le (by simp), List.append_nil]

theorem entryPtrs_update {key : ℕ → Ptr} {l : List (BinhashInfo (ℕ × α))} {elm : ℕ}
    (hnew : elm ∉ addrs (l.map BinhashMem.entryAt)) (p : Ptr) :
    entryPtrs (Function.update key elm p) l = entryPtrs key l := by
  refine List.flatMap_congr fun e he => ?_
  have hne : e.value.1 ≠ elm := by
    rintro rfl
    exact hnew (List.mem_map_of_mem (List.mem_map_of_mem he))
  rw [Function.update_of_ne hne]

/-- A pair that is entered gets an entry and a copy of the key. -/
theorem Stored.enter (hs : Stored h other t b) {turns : ℕ} (hturns : t.table.used ≤ turns)
    {key : Bytes} {value : α} {r : ℕ × BinhashBlocks α × Heap}
    (hr : binhashEnter turns h t key value = .ok r) :
    ∃ b', Stored r.2.2 other r.2.1 b' ∧
      b'.data.flatten.Perm (⟨key, (r.1, value)⟩ :: b.data.flatten) := by
  obtain ⟨⟨t₁, h₁⟩, hgrow, hr⟩ := bind_ok_iff.1 hr
  obtain ⟨⟨ht, h₂⟩, hmalloc, hr⟩ := bind_ok_iff.1 hr
  obtain ⟨elm, helm, hr⟩ := bind_ok_iff.1 hr
  obtain ⟨⟨copy, h₃⟩, hdup, hr⟩ := bind_ok_iff.1 hr
  obtain ⟨table, hlink, hr⟩ := bind_ok_iff.1 hr
  obtain rfl := Except.ok.inj hr
  -- a full table grows first
  obtain ⟨b₁, hs₁, hperm₁⟩ : ∃ b₁, Stored h₁ other t₁ b₁ ∧
      b₁.data.flatten.Perm b.data.flatten := by
    split at hgrow
    · exact ⟨_, hs.grow hturns hgrow, (Binhash.Wf.grow (t := b)).2⟩
    · obtain ⟨rfl, rfl⟩ := Prod.mk.inj (Except.ok.inj hgrow)
      exact ⟨b, hs, List.Perm.refl _⟩
  have hfresh := mymalloc_ok hmalloc
  obtain ⟨hfresh', c, hheader, hpayload⟩ := mymemdup_ok hdup
  have hht : ht = .block elm := by
    cases ht with
    | null => cases helm
    | emptyString => cases helm
    | block id => exact congrArg Ptr.block (Except.ok.inj helm)
  have hholds := hs₁.holds.malloc hfresh
  have hholds' := hholds.malloc hfresh'
  have hnew : elm ∉ addrs (b₁.data.flatten.map BinhashMem.entryAt) := by
    intro hmem
    obtain ⟨x, hx, rfl⟩ := List.mem_map.1 hmem
    obtain ⟨e, he, rfl⟩ := List.mem_map.1 hx
    refine (List.nodup_cons.1 hholds.owns.nodup).1 ?_
    rw [hht]
    exact List.mem_cons_of_mem _ (List.mem_cons_of_mem _ (mem_entryPtrs t₁.key he).2)
  -- the entry is linked
  obtain ⟨t₂, hlink', hrefines, -⟩ := (hs₁.refines.update hnew
    (some ⟨⟨key, value⟩, none, none⟩)).link hs₁.wf (e := ⟨key, (elm, value)⟩)
    (Function.update_self ..) hnew
  obtain rfl := Except.ok.inj (hlink'.symm.trans hlink)
  have hperm := Binhash.link_perm hs₁.wf ⟨key, (elm, value)⟩
  refine ⟨Nowra.binhashLink b₁ ⟨key, (elm, value)⟩, ⟨hrefines, hs₁.wf.link _, ?_, ?_, ?_⟩,
    hperm.trans (hperm₁.cons _)⟩
  · rw [hrefines.size]
    exact hs₁.refines.size ▸ hs₁.small
  · refine hholds'.perm ?_
    have hswap : ([copy, ht] ++ [t₁.self, t₁.data]).Perm ([t₁.self, t₁.data] ++ [copy, ht]) :=
      List.perm_append_comm
    refine (hswap.append_right (entryPtrs t₁.key b₁.data.flatten)).trans ?_
    refine List.Perm.trans ?_ (((entryPtrs_perm hperm.symm).cons _).cons _)
    have hcons : entryPtrs (Function.update t₁.key elm copy)
        (⟨key, (elm, value)⟩ :: b₁.data.flatten) =
          copy :: .block elm :: entryPtrs t₁.key b₁.data.flatten := by
      rw [← entryPtrs_update hnew copy]
      simp [entryPtrs]
    rw [hcons, hht]
    exact List.Perm.refl _
  · intro e he
    change ∃ c, h₃.header (Function.update t₁.key elm copy e.value.1) = some c ∧ c.payload = e.key
    have hcases := List.mem_cons.1 (hperm.mem_iff.1 he)
    clear he
    rcases hcases with rfl | he
    · rw [Function.update_self]
      exact ⟨c, hheader, hpayload⟩
    · have hne : e.value.1 ≠ elm := by
        rintro rfl
        exact hnew (List.mem_map_of_mem (List.mem_map_of_mem he))
      have hmem := List.mem_cons_of_mem t₁.self
        (List.mem_cons_of_mem t₁.data (mem_entryPtrs t₁.key he).1)
      rw [Function.update_of_ne hne, hholds.header_fresh hfresh' (List.mem_cons_of_mem _ hmem),
        hs₁.holds.header_fresh hfresh hmem]
      exact hs₁.copies e he

/-- What a search in a table finds is the entry that is first in the lists. -/
theorem Stored.search (hs : Stored h other t b) {turns : ℕ} (hturns : t.table.used ≤ turns)
    (key : Bytes) :
    BinhashMem.binhashLocate turns (some t.table) key =
      .ok ((binhashFirst b key).map (·.value.1)) := by
  refine (hs.refines.search hs.wf key hturns).trans (congrArg Except.ok ?_)
  exact Option.map_map ..

/-- A key that is deleted gives back its entry, the copy and the value. A key that is not there is
a panic. -/
theorem Stored.delete (hs : Stored h other t b) {turns : ℕ} (hturns : t.table.used ≤ turns)
    (key : Bytes) :
    (binhashFirst b key = none ∧
      binhashDelete turns h t key = .error (.panic (.unknownKey key))) ∨
    ∃ e t' h' b', binhashFirst b key = some e ∧
      binhashDelete turns h t key = .ok (e.value.2, t', h') ∧ Stored h' other t' b' ∧
      b.data.flatten.Perm (e :: b'.data.flatten) := by
  have hsearch := hs.search hturns key
  cases hfirst : binhashFirst b key with
  | none =>
    rw [hfirst] at hsearch
    exact .inl ⟨rfl, bind_error_iff.2 (.inr ⟨_, hsearch, rfl⟩)⟩
  | some e =>
    rw [hfirst] at hsearch
    -- what happens to the memory of the table
    obtain ⟨t', b', hdel, hlists, hrefines, hwf, hsize⟩ :=
      hs.refines.delete_first hs.wf hfirst hturns
    obtain ⟨-, -, -, -, b'', hlists', -, -, -, -, hperm⟩ := binhashDelete_first hs.wf hfirst
    obtain rfl := Option.some.inj (Except.ok.inj (hlists'.symm.trans hlists))
    obtain ⟨found, hfound, hrest⟩ := bind_ok_iff.1 hdel
    obtain rfl := Except.ok.inj (hsearch.symm.trans hfound)
    obtain ⟨ht, hread, hrest⟩ := bind_ok_iff.1 hrest
    obtain ⟨table, hunlink, hrest⟩ := bind_ok_iff.1 hrest
    obtain ⟨rfl, hvalue⟩ := Prod.mk.inj (Except.ok.inj hrest)
    -- the two blocks of the entry
    have hptrs : (t.ptrs b).Perm (t.key e.value.1 :: .block e.value.1 :: t.ptrs b'') := by
      have hswap : ([t.self, t.data] ++ [t.key e.value.1, .block e.value.1]).Perm
          ([t.key e.value.1, .block e.value.1] ++ [t.self, t.data]) := List.perm_append_comm
      exact (((entryPtrs_perm hperm).cons _).cons _).trans (hswap.append_right _)
    have hholds := hs.holds.perm hptrs
    obtain ⟨hfree₁, hholds₁⟩ := hholds.free
    obtain ⟨hfree₂, hholds₂⟩ := hholds₁.free
    refine .inr ⟨e, ⟨t.self, t.data, t.key, _⟩, _, b'', rfl, ?_,
      ⟨hrefines, hwf, ?_, hholds₂, fun e' he' => ?_⟩, hperm⟩
    · rw [← hvalue]
      exact bind_ok_iff.2 ⟨_, hsearch, bind_ok_iff.2 ⟨ht, hread, bind_ok_iff.2 ⟨table, hunlink,
        bind_ok_iff.2 ⟨_, hfree₁, bind_ok_iff.2 ⟨_, hfree₂, rfl⟩⟩⟩⟩⟩
    · rw [hrefines.size, hsize]
      exact hs.refines.size ▸ hs.small
    · have hmem := List.mem_cons_of_mem t.self
        (List.mem_cons_of_mem t.data (mem_entryPtrs t.key he').1)
      rw [hholds₁.header_free hmem, hholds.header_free (List.mem_cons_of_mem _ hmem)]
      exact hs.copies e' (hperm.mem_iff.2 (List.mem_cons_of_mem _ he'))

/-- The loop over a chain gives back the blocks of its entries, and reads no entry that it has
given back. -/
theorem freeChain_eq {l : List (BinhashInfo (ℕ × α))} {rest : List Ptr} {ht : Option ℕ}
    (hl : Linked t.table.info ht (l.map BinhashMem.entryAt))
    (hnd : (addrs (l.map BinhashMem.entryAt)).Nodup)
    (hholds : h.Holds other (entryPtrs t.key l ++ rest)) {turns : ℕ} (hturns : l.length ≤ turns)
    (values : List α) :
    ∃ t' h', freeChain turns t h values ht = .ok (t', h', values ++ l.map (·.value.2)) ∧
      t'.key = t.key ∧ h'.Holds other rest ∧
      ∀ a, a ∉ addrs (l.map BinhashMem.entryAt) → t'.table.info a = t.table.info a := by
  induction l generalizing t h ht turns values with
  | nil =>
    obtain rfl : ht = none := hl
    exact ⟨t, h, by simp [freeChain, pure, Except.pure], rfl, hholds, fun _ _ => rfl⟩
  | cons e l ih =>
    obtain ⟨rfl, n, p, hnode, hl⟩ := hl
    obtain _ | turns := turns
    · simp at hturns
    obtain ⟨hgone, hnd⟩ := List.nodup_cons.1 hnd
    have hholds' : h.Holds other
        (t.key e.value.1 :: .block e.value.1 :: (entryPtrs t.key l ++ rest)) := hholds
    obtain ⟨hfree₁, hholds₁⟩ := hholds'.free
    obtain ⟨hfree₂, hholds₂⟩ := hholds₁.free
    let table : BinhashMem α :=
      { t.table with info := Function.update t.table.info e.value.1 none }
    have hl' : Linked table.info n (l.map BinhashMem.entryAt) := by
      refine hl.congr fun a ha => Function.update_of_ne ?_ _ _
      rintro rfl
      exact hgone ha
    obtain ⟨t', h', hrun, hkey, hholds', hframe⟩ := ih (t := { t with table }) hl' hnd hholds₂
      (Nat.le_of_succ_le_succ hturns) (values ++ [e.value.2])
    refine ⟨t', h', ?_, hkey, hholds', fun a ha => ?_⟩
    · rw [List.map_cons, List.append_cons]
      exact bind_ok_iff.2 ⟨_, BinhashMem.read_eq hnode, bind_ok_iff.2 ⟨_, hfree₁,
        bind_ok_iff.2 ⟨_, hfree₂, hrun⟩⟩⟩
    · rw [List.map_cons, addrs, List.map_cons, List.mem_cons, not_or] at ha
      exact (hframe a ha.2).trans (Function.update_of_ne ha.1 _ _)

/-- The loops over the chains give back the blocks of all entries. -/
theorem freeChains_eq {cs : List (List (BinhashInfo (ℕ × α)))} {hs : List (Option ℕ)}
    {rest : List Ptr} (hlen : hs.length = cs.length)
    (hl : ∀ i, Linked t.table.info (hs.getD i none) ((cs.getD i []).map BinhashMem.entryAt))
    (hnd : (addrs (cs.flatten.map BinhashMem.entryAt)).Nodup)
    (hholds : h.Holds other (entryPtrs t.key cs.flatten ++ rest)) {turns : ℕ}
    (hturns : cs.flatten.length ≤ turns) (values : List α) :
    ∃ t' h', hs.foldlM (fun (s : BinhashBlocks α × Heap × List α) ht =>
        freeChain turns s.1 s.2.1 s.2.2 ht) (t, h, values) =
          .ok (t', h', values ++ cs.flatten.map (·.value.2)) ∧ h'.Holds other rest := by
  induction cs generalizing t h hs values with
  | nil =>
    obtain rfl := List.length_eq_zero_iff.1 hlen
    exact ⟨t, h, by simp [pure, Except.pure], hholds⟩
  | cons c cs ih =>
    obtain _ | ⟨ht, hs⟩ := hs
    · cases hlen
    rw [List.flatten_cons, List.length_append] at hturns
    rw [List.flatten_cons, List.map_append, addrs, List.map_append, List.nodup_append] at hnd
    rw [List.flatten_cons, entryPtrs, List.flatMap_append, List.append_assoc] at hholds
    have hturns' : c.length ≤ turns := by omega
    obtain ⟨t₁, h₁, hrun₁, hkey, hholds₁, hframe⟩ :=
      freeChain_eq (hl 0) hnd.1 hholds hturns' values
    have hl₁ : ∀ i, Linked t₁.table.info (hs.getD i none)
        ((cs.getD i []).map BinhashMem.entryAt) := by
      refine fun i => (hl (i + 1)).congr fun a ha => hframe a fun hmem => ?_
      have hsub := ((BinhashMem.getD_sublist cs i).map BinhashMem.entryAt).map Prod.fst
      exact hnd.2.2 a hmem a (hsub.subset ha) rfl
    rw [← hkey] at hholds₁
    obtain ⟨t', h', hrun, hholds'⟩ := ih (Nat.succ.inj hlen) hl₁ hnd.2.1 hholds₁ (by omega)
      (values ++ c.map (·.value.2))
    refine ⟨t', h', ?_, hholds'⟩
    rw [List.foldlM_cons, List.flatten_cons, List.map_append, ← List.append_assoc]
    exact bind_ok_iff.2 ⟨_, hrun₁, hrun⟩

/-- A table that is destroyed gives all its blocks back. -/
theorem Stored.free (hs : Stored h other t b) {turns : ℕ} (hturns : t.table.used ≤ turns) :
    ∃ h', binhashFree turns h (some t) = .ok (h', b.data.flatten.map (·.value.2)) ∧
      h'.block = other := by
  have hlen : b.data.flatten.length ≤ turns := by rwa [← hs.wf.used, ← hs.refines.used]
  have hsize : t.table.size = t.table.data.length := by
    rw [hs.refines.length, hs.wf.length, hs.refines.size]
  have hptrs : (t.ptrs b).Perm (entryPtrs t.key b.data.flatten ++ [t.data, t.self]) := by
    have hlast : ([t.data, t.self] ++ entryPtrs t.key b.data.flatten).Perm
        (entryPtrs t.key b.data.flatten ++ [t.data, t.self]) := List.perm_append_comm
    exact (List.Perm.swap _ _ _).trans hlast
  have hholds := hs.holds.perm hptrs
  obtain ⟨t', h₁, hrun, hholds₁⟩ := freeChains_eq hs.refines.length
    (fun i => (hs.refines.chain i).linked) hs.refines.nodup hholds hlen []
  obtain ⟨hfree₁, hholds₂⟩ := hholds₁.free
  obtain ⟨hfree₂, hholds₃⟩ := hholds₂.free
  refine ⟨_, ?_, hholds₃.block_eq⟩
  rw [← BinhashMem.foldlM_head, ← hsize] at hrun
  exact bind_ok_iff.2 ⟨_, hrun, bind_ok_iff.2 ⟨_, hfree₁, bind_ok_iff.2 ⟨_, hfree₂, rfl⟩⟩⟩

/-- A new table is two blocks, with no entries. -/
theorem stored_create (hunused : ∀ id, h.next ≤ id → h.block id = none) {size : ℤ}
    {r : BinhashBlocks α × Heap} (hr : binhashCreate α h size = .ok r) :
    ∃ b, Stored r.2 h.block r.1 b ∧ b.data.flatten = [] := by
  obtain ⟨⟨self, h₁⟩, hmalloc, hr⟩ := bind_ok_iff.1 hr
  obtain ⟨⟨data, table, h₂⟩, harray, hr⟩ := bind_ok_iff.1 hr
  obtain rfl := Except.ok.inj hr
  obtain ⟨⟨data', h₂'⟩, hmalloc', harray⟩ := bind_ok_iff.1 harray
  obtain ⟨table', hsize, harray⟩ := bind_ok_iff.1 harray
  cases harray
  obtain ⟨n, hn⟩ : ∃ n, (if size < 13 then 13 else size.toNat) = n := ⟨_, rfl⟩
  rw [hn] at hsize
  have hsmall := size_of_ok hsize
  obtain rfl := Except.ok.inj ((BinhashMem.binhashSize_eq hsmall).symm.trans hsize)
  have hempty : (Nowra.binhashSize (ℕ × α) n).data.flatten = [] := by simp [Nowra.binhashSize]
  refine ⟨Nowra.binhashSize (ℕ × α) n, ⟨BinhashMem.refines_empty n _, Binhash.wf_binhashSize _ n,
    hsmall, ?_, fun e he => ?_⟩, hempty⟩
  · have hholds := ((Heap.holds_nil hunused).malloc (mymalloc_ok hmalloc)).malloc
      (mymalloc_ok hmalloc')
    rw [ptrs, hempty]
    exact hholds.perm (List.Perm.swap _ _ _)
  · rw [hempty] at he
    cases he

end BinhashBlocks

/-! ## Runs -/

/-- A table while the rest of the program runs beside it. -/
structure BinhashLife (α : Type) where
  heap : Heap
  /-- The blocks of the rest of the program. -/
  other : ℕ → Option MBlock
  table : BinhashBlocks α
  /-- The values that were entered. -/
  entered : List α
  /-- The values that were given to `free_fn`. -/
  given : List α

/-- A call on the table, or a step of the rest of the program. -/
inductive BinhashLifeLabel (α : Type)
  | enter (key : Bytes) (value : α)
  | delete (key : Bytes)
  | other

/-- A call that returns, or a step of the rest of the program. -/
inductive BinhashLifeStep (s : BinhashLife α) : BinhashLifeLabel α → BinhashLife α → Prop
  | enter {key : Bytes} {value : α} {turns : ℕ} {r : ℕ × BinhashBlocks α × Heap}
      (hturns : s.table.table.used ≤ turns)
      (h : BinhashBlocks.binhashEnter turns s.heap s.table key value = .ok r) :
      BinhashLifeStep s (.enter key value)
        ⟨r.2.2, s.other, r.2.1, s.entered ++ [value], s.given⟩
  | delete {key : Bytes} {turns : ℕ} {r : α × BinhashBlocks α × Heap}
      (hturns : s.table.table.used ≤ turns)
      (h : BinhashBlocks.binhashDelete turns s.heap s.table key = .ok r) :
      BinhashLifeStep s (.delete key) ⟨r.2.2, s.other, r.2.1, s.entered, s.given ++ [r.1]⟩
  | other {heap : Heap} {other : ℕ → Option MBlock} (h : s.heap.OtherStep s.other heap other) :
      BinhashLifeStep s .other ⟨heap, other, s.table, s.entered, s.given⟩

/-- A step that can be computed. The rest of the program allocates a byte. -/
def binhashLifeCall (s : BinhashLife α) : BinhashLifeLabel α → Option (BinhashLife α)
  | .enter key value =>
    (BinhashBlocks.binhashEnter s.table.table.used s.heap s.table key value).toOption.map fun r =>
      ⟨r.2.2, s.other, r.2.1, s.entered ++ [value], s.given⟩
  | .delete key =>
    (BinhashBlocks.binhashDelete s.table.table.used s.heap s.table key).toOption.map fun r =>
      ⟨r.2.2, s.other, r.2.1, s.entered, s.given ++ [r.1]⟩
  | .other =>
    let r := s.heap.checkOut 1 [0]
    some ⟨r.2, Function.update s.other s.heap.next (r.2.block s.heap.next), s.table, s.entered,
      s.given⟩

/-- A table from its creation on. -/
def binhashLifeSystem (α : Type) : LTS (BinhashLife α) (BinhashLifeLabel α) where
  init s := ∃ (h : Heap) (size : ℤ), (∀ id, h.next ≤ id → h.block id = none) ∧
    BinhashBlocks.binhashCreate α h size = .ok (s.table, s.heap) ∧ s.other = h.block ∧
    s.entered = [] ∧ s.given = []
  step := BinhashLifeStep

/-- The table has its blocks, and the values that were entered and are not in it were given to
`free_fn`. -/
def BinhashLife.Inv (s : BinhashLife α) (b : Binhash (ℕ × α)) : Prop :=
  s.table.Stored s.heap s.other b ∧
    (s.given ++ b.data.flatten.map (·.value.2)).Perm s.entered

namespace BinhashLife

variable {s : BinhashLife α}

theorem Inv.step {b : Binhash (ℕ × α)} (hi : s.Inv b) {a : BinhashLifeLabel α}
    {s' : BinhashLife α} (hst : (binhashLifeSystem α).step s a s') : ∃ b', s'.Inv b' := by
  obtain ⟨hs, hvalues⟩ := hi
  cases hst with
  | @enter key value turns r hturns hr =>
    obtain ⟨b', hs', hperm⟩ := hs.enter hturns hr
    refine ⟨b', hs', ?_⟩
    have hmap := (hperm.map (·.value.2)).append_left s.given
    exact (hmap.trans List.perm_middle).trans
      ((hvalues.cons value).trans (List.perm_append_singleton value _).symm)
  | @delete key turns r hturns hr =>
    rcases hs.delete hturns key with ⟨-, herr⟩ | ⟨e, t', h', b', -, hok, hs', hperm⟩
    · cases herr.symm.trans hr
    · obtain rfl := Except.ok.inj (hok.symm.trans hr)
      refine ⟨b', hs', ?_⟩
      rw [List.append_assoc]
      exact ((hperm.map (·.value.2)).symm.append_left s.given).trans hvalues
  | other hother => exact ⟨b, hs.others hother, hvalues⟩

theorem inv_of_init (hs : (binhashLifeSystem α).init s) : ∃ b, s.Inv b := by
  obtain ⟨h, size, hunused, hcreate, hother, hentered, hgiven⟩ := hs
  obtain ⟨b, hs, hempty⟩ := BinhashBlocks.stored_create hunused hcreate
  rw [← hother] at hs
  refine ⟨b, hs, ?_⟩
  rw [hentered, hgiven, hempty]
  exact List.Perm.refl _

theorem inv_of_reach (hr : (binhashLifeSystem α).Reach s) : ∃ b, s.Inv b := by
  refine hr.invariant (P := fun s => ∃ b, s.Inv b) (fun s hs => inv_of_init hs) ?_
  rintro s a s' ⟨b, hb⟩ hst
  exact hb.step hst

/-- What is computed is a step. -/
theorem step_of_call {a : BinhashLifeLabel α} {s' : BinhashLife α}
    (hcall : binhashLifeCall s a = some s') : (binhashLifeSystem α).step s a s' := by
  cases a with
  | enter key value =>
    obtain ⟨r, hr, rfl⟩ := Option.map_eq_some_iff.1 hcall
    exact .enter le_rfl (toOption_eq_some hr)
  | delete key =>
    obtain ⟨r, hr, rfl⟩ := Option.map_eq_some_iff.1 hcall
    exact .delete le_rfl (toOption_eq_some hr)
  | other =>
    obtain rfl := Option.some.inj hcall
    exact .other (.malloc (fresh_checkOut s.heap (by decide) _))

end BinhashLife

/-- After any sequence of calls, whatever the rest of the program allocates, writes and releases
in between, destroying the table succeeds, leaves the blocks of the rest of the program and no
others, and every value that was entered has been given to `free_fn` once. Until then a deletion
goes wrong for a key that is not there only, and a key that is located is in its copy. -/
theorem binhashFree_releases {s : BinhashLife α} (hr : (binhashLifeSystem α).Reach s) {turns : ℕ}
    (hturns : s.table.table.used ≤ turns) :
    (∃ heap values, BinhashBlocks.binhashFree turns s.heap (some s.table) = .ok (heap, values) ∧
      heap.block = s.other ∧ (s.given ++ values).Perm s.entered) ∧
    ∀ key, (BinhashMem.binhashLocate turns (some s.table.table) key = .ok none ∧
        BinhashBlocks.binhashDelete turns s.heap s.table key =
          .error (.panic (.unknownKey key))) ∨
      ∃ a c r, BinhashMem.binhashLocate turns (some s.table.table) key = .ok (some a) ∧
        s.heap.header (s.table.key a) = some c ∧ c.payload = key ∧
        BinhashBlocks.binhashDelete turns s.heap s.table key = .ok r := by
  obtain ⟨b, hs, hvalues⟩ := BinhashLife.inv_of_reach hr
  constructor
  · obtain ⟨heap, hfree, hblock⟩ := hs.free hturns
    exact ⟨heap, _, hfree, hblock, hvalues⟩
  · intro key
    have hsearch := hs.search hturns key
    rcases hs.delete hturns key with ⟨hfirst, herr⟩ | ⟨e, t', h', b', hfirst, hok, -, -⟩
    · rw [hfirst] at hsearch
      exact .inl ⟨hsearch, herr⟩
    · rw [hfirst] at hsearch
      obtain ⟨hkey, hmem⟩ := binhashFirst_spec hs.wf hfirst
      obtain ⟨c, hheader, hpayload⟩ := hs.copies e hmem
      exact .inr ⟨e.value.1, c, _, hsearch, hheader, hpayload.trans hkey, hok⟩

/-- Fourteen pairs make a table grow. One of them is deleted, after the rest of the program has
allocated a block. -/
theorem binhashFree_releases_grown : ∃ s : BinhashLife ℕ, (binhashLifeSystem ℕ).Reach s ∧
    s.table.table.size = 27 ∧ s.given = [6] ∧ s.entered = List.range 14 ∧
    ∃ heap values, BinhashBlocks.binhashFree s.table.table.used s.heap (some s.table) =
      .ok (heap, values) ∧ heap.block = s.other ∧ (s.given ++ values).Perm s.entered := by
  let start (r : BinhashBlocks ℕ × Heap) : BinhashLife ℕ := ⟨r.2, heapInit.block, r.1, [], []⟩
  let calls : List (BinhashLifeLabel ℕ) :=
    ((List.range 14).map fun n => .enter [BitVec.ofNat 8 n] n) ++ [.other, .delete [6]]
  have hrun : ((BinhashBlocks.binhashCreate ℕ heapInit 0).toOption.any fun r =>
      (calls.foldlM binhashLifeCall (start r)).any fun s =>
        decide (s.table.table.size = 27 ∧ s.given = [6] ∧ s.entered = List.range 14)) = true := by
    decide +kernel
  obtain ⟨r, hcreate, hrun⟩ := (Option.any_eq_true _ _).1 hrun
  obtain ⟨s, hfold, hs⟩ := (Option.any_eq_true _ _).1 hrun
  obtain ⟨hsize, hgiven, hentered⟩ := of_decide_eq_true hs
  obtain ⟨tr, hpath, -⟩ := LTS.Path.of_foldlM (S := binhashLifeSystem ℕ)
    (fun _ _ _ hst => BinhashLife.step_of_call hst) hfold
  have hinit : (binhashLifeSystem ℕ).init (start r) :=
    ⟨heapInit, 0, fun _ _ => rfl, toOption_eq_some hcreate, rfl, rfl, rfl⟩
  have hreach : (binhashLifeSystem ℕ).Reach s := ⟨tr, start r, hinit, hpath⟩
  exact ⟨s, hreach, hsize, hgiven, hentered, (binhashFree_releases hreach le_rfl).1⟩

end Nowra
