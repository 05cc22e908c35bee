import Nowra.Argv
import Nowra.Strtok

/-!
# The slots of a string array

`argv.c` with the slots of the array : each write goes to a slot, and a write to a slot that the
array does not have is a fault of its own (`ArgvFault.slot`). The array has as many slots as its
block has room for, which is `len + 1` only while the size of the block is an `int`.

An array with slots refines the array of `Nowra.Argv`, whose elements are the pointers in the
first `argc` slots (`ArgvMem.Refines`). On top of that its elements are copies of what was added
(`ArgvMem.Built`). What one argument does to it is `ArgvMem.Built.add`.
-/

namespace Nowra

/-! ## The code -/

/-- How code with a string array goes wrong. -/
inductive ArgvFault
  | heap (f : Fault)
  /-- A write to a slot that the array does not have. -/
  | slot
  deriving DecidableEq

/-- A call of the allocator. -/
def heapCall {α : Type} (x : Except Fault α) : Except ArgvFault α := x.mapError .heap

/-- A string array with its slots, `none` where nothing has been stored. -/
structure ArgvMem where
  /-- The address of the `ARGV`. -/
  self : Ptr
  /-- The number of array elements. -/
  len : ℤ
  /-- The array elements in use. -/
  argc : ℤ
  argv : Ptr
  slots : List (Option Ptr)

/-- `argvp->argv[i] = p` -/
def ArgvMem.setSlot (argvp : ArgvMem) (i : ℤ) (p : Ptr) : Except ArgvFault ArgvMem :=
  if 0 ≤ i ∧ i < argvp.slots.length then
    pure { argvp with slots := argvp.slots.set i.toNat (some p) }
  else throw .slot

/-- The number of slots in a block. -/
def slotsIn (size : ℤ) : ℕ := (size / sizeofPtr).toNat

/-- Initialize a string array. -/
def argvMemAlloc (h : Heap) (len : ℤ) : Except ArgvFault (ArgvMem × Heap) := do
  let (self, h) ← heapCall (mymalloc h sizeofArgv)
  let len := if len < 2 then 2 else len
  let size := intOf ((len + 1) * sizeofPtr)
  let (argv, h) ← heapCall (mymalloc h size)
  let argvp ← ArgvMem.setSlot ⟨self, len, 0, argv, List.replicate (slotsIn size) none⟩ 0 .null
  pure (argvp, h)

/-- Make room for one more element. -/
def argvMemGrow (h : Heap) (argvp : ArgvMem) : Except ArgvFault (ArgvMem × Heap) :=
  if argvp.argc + 1 ≥ argvp.len then do
    let len := argvp.len * 2
    let size := intOf ((len + 1) * sizeofPtr)
    let (argv, h) ← heapCall (myrealloc h argvp.argv size)
    let slots := argvp.slots.take (slotsIn size) ++
      List.replicate (slotsIn size - argvp.slots.length) none
    pure ({ argvp with len := len, argv := argv, slots := slots }, h)
  else pure (argvp, h)

/-- One turn of the loop of `argv_add`. -/
def argvMemAddArg (r : ArgvMem × Heap) (arg : Bytes) : Except ArgvFault (ArgvMem × Heap) := do
  let (argvp, h) ← argvMemGrow r.2 r.1
  let (p, h) ← heapCall (mystrdup h (some arg))
  let argvp ← argvp.setSlot argvp.argc p
  pure ({ argvp with argc := argvp.argc + 1 }, h)

/-- Add strings to the array. -/
def argvMemAdd (r : ArgvMem × Heap) (args : List Bytes) : Except ArgvFault (ArgvMem × Heap) :=
  args.foldlM argvMemAddArg r

/-- Terminate the array. -/
def argvMemTerminate (argvp : ArgvMem) : Except ArgvFault ArgvMem :=
  argvp.setSlot argvp.argc .null

/-- The bytes at the address of a string. -/
def Heap.bytesAt (h : Heap) : Ptr → Except Fault Bytes
  | .null => throw .outside
  | .emptyString => pure [0]
  | .block id =>
    match h.block id with
    | none => throw .outside
    | some b => pure b.payload

/-- The first `turns` turns of the loop over the tokens of the copy `mem`, with the cursor at
`bp`. Nothing else can reach the copy. -/
def argvSplitLoop (delim : Bytes) :
    (turns : ℕ) → (mem : Bytes) → (bp : ℕ) → ArgvMem × Heap → Except ArgvFault (ArgvMem × Heap)
  | 0, _, _, r => pure r
  | turns + 1, mem, bp, r => do
    let (arg, bp, mem) ← heapCall (mystrtokAt mem bp delim)
    match arg with
    | none => pure r
    | some arg => do
      let r ← argvMemAdd r [strAt mem arg]
      argvSplitLoop delim turns mem bp r

/-- Split a string into tokens and append them to an array. The loop ends before it has made more
turns than the copy has bytes. -/
def argvMemSplitAppend (r : ArgvMem × Heap) (string delim : Bytes) :
    Except ArgvFault (ArgvMem × Heap) := do
  let (savedString, h) ← heapCall (mystrdup r.2 (some string))
  let mem ← heapCall (h.bytesAt savedString)
  let (argvp, h) ← argvSplitLoop delim mem.length mem 0 (r.1, h)
  let argvp ← argvMemTerminate argvp
  let h ← heapCall (myfree h savedString)
  pure (argvp, h)

/-- Split a string into an array of tokens. -/
def argvMemSplit (h : Heap) (string delim : Bytes) : Except ArgvFault (ArgvMem × Heap) := do
  let r ← argvMemAlloc h 1
  argvMemSplitAppend r string delim

/-! ## Strings in blocks -/

/-- The string at `p`, and its null byte, are `s`. -/
def Heap.Stores (h : Heap) (p : Ptr) (s : Bytes) : Prop :=
  p = .emptyString ∧ s = [] ∨
    ∃ id b, p = .block id ∧ h.block id = some b ∧ b.payload = s ++ [0]

namespace Heap

variable {h : Heap} {p ptr : Ptr} {s : Bytes} {id : ℕ}

theorem Fresh.block_eq {r : Ptr × Heap} (hr : h.Fresh r) (hid : id < h.next) :
    r.2.block id = h.block id := by
  obtain ⟨-, b, -, heap⟩ := hr
  rw [heap]
  exact Function.update_of_ne (Nat.ne_of_lt hid) _ _

theorem free_block_eq (hne : ptr ≠ .block id) : (h.free ptr).block id = h.block id := by
  cases ptr with
  | null => rfl
  | emptyString => rfl
  | block id' => exact Function.update_of_ne (fun he => hne (by rw [he])) _ _

theorem free_next (h : Heap) (ptr : Ptr) : (h.free ptr).next = h.next := by
  cases ptr <;> rfl

/-- A string stays while its block does. -/
theorem Stores.congr {h' : Heap} (hs : h.Stores p s)
    (heq : ∀ id, p = .block id → h'.block id = h.block id) : h'.Stores p s := by
  rcases hs with hs | ⟨id, b, rfl, hb, hs⟩
  · exact .inl hs
  · exact .inr ⟨id, b, rfl, (heq id rfl).trans hb, hs⟩

theorem Stores.bytesAt (hs : h.Stores p s) : h.bytesAt p = .ok (s ++ [0]) := by
  rcases hs with ⟨rfl, rfl⟩ | ⟨id, b, rfl, hb, hs⟩
  · rfl
  · rw [Heap.bytesAt, hb, ← hs]
    rfl

end Heap

/-- The blocks that are owned beside the one that is reallocated stay. -/
theorem Heap.Owns.myrealloc_block {h : Heap} {ptr : Ptr} {ptrs : List Ptr} {len : ℤ}
    {r : Ptr × Heap} (ho : h.Owns (ptr :: ptrs)) (hr : Nowra.myrealloc h ptr len = .ok r) {id : ℕ}
    (hid : .block id ∈ ptrs) : r.2.block id = h.block id := by
  obtain ⟨id', -, he, hlt, -⟩ := ho.valid _ (List.mem_cons_of_mem _ hid)
  obtain rfl := Ptr.block.inj he
  have hne : ptr ≠ .block id := fun he => (List.nodup_cons.1 ho.nodup).1 (he ▸ hid)
  rw [(myrealloc_ok hr).2.block_eq (by rw [Heap.free_next]; exact hlt),
    Heap.free_block_eq hne]

/-- A copy leaves the blocks that are owned. -/
theorem Heap.Owns.mystrdup_block {h : Heap} {ptrs : List Ptr} {str : Bytes} {r : Ptr × Heap}
    (ho : h.Owns ptrs) (hr : Nowra.mystrdup h (some str) = .ok r) {id : ℕ}
    (hid : .block id ∈ ptrs) : r.2.block id = h.block id := by
  obtain ⟨id', -, he, hlt, -⟩ := ho.valid _ hid
  obtain rfl := Ptr.block.inj he
  rcases mystrdup_ok hr with ⟨-, rfl⟩ | ⟨-, hfresh⟩
  · rfl
  · exact hfresh.block_eq hlt

/-- A copy of a string stores it. -/
theorem mystrdup_stores {h : Heap} {str : Bytes} {r : Ptr × Heap}
    (hr : mystrdup h (some str) = .ok r) : r.2.Stores r.1 str := by
  have hlen := (mystrdup_isOk h str).1 ⟨r, hr⟩
  unfold mystrdup at hr
  by_cases hstr : str = []
  · simp only [if_pos hstr] at hr
    rw [← Except.ok.inj hr]
    exact .inl ⟨rfl, hstr⟩
  · simp only [if_neg hstr] at hr
    rw [intOf_eq (by omega) (by omega), mallocStore_eq, if_neg (by omega),
      if_neg (by simp)] at hr
    rw [← Except.ok.inj hr]
    refine .inr ⟨h.next, _, rfl, Function.update_self _ _ _, ?_⟩
    rw [List.drop_eq_nil_of_le (by simp), List.append_nil]

/-! ## Calls of the allocator -/

theorem heapCall_ok {α : Type} {x : Except Fault α} {a : α} :
    heapCall x = .ok a ↔ x = .ok a := by
  cases x with
  | error e => simp [heapCall, Except.mapError]
  | ok b => simp [heapCall, Except.mapError]

theorem heapCall_error {α : Type} {x : Except Fault α} {e : ArgvFault} :
    heapCall x = .error e ↔ ∃ f, x = .error f ∧ e = .heap f := by
  cases x with
  | error f => simp [heapCall, Except.mapError, eq_comm]
  | ok b => simp [heapCall, Except.mapError]

theorem bindOk {ε α β : Type} {x : Except ε α} {f : α → Except ε β} {a : α} (hx : x = .ok a) :
    x >>= f = f a := by
  rw [hx]
  rfl

/-! ## The array with slots and the array of pointers -/

/-- The array with the pointers in its slots. -/
structure ArgvMem.Refines (m : ArgvMem) (a : Argv) : Prop where
  self : m.self = a.self
  len : m.len = a.len
  argc : m.argc = a.argc
  argv : m.argv = a.argv
  size : (m.slots.length : ℤ) = m.len + 1
  elems : m.slots.take a.elems.length = a.elems.map some

/-- The array holds copies of `args` in its slots, added from a first size `len`. Its blocks are
owned, together with `rest`. -/
def ArgvMem.Built (m : ArgvMem) (h : Heap) (len : ℤ) (args : List Bytes) (rest : List Ptr) :
    Prop :=
  ∃ a : Argv, m.Refines a ∧ a.Built h len args rest ∧
    ∀ (i : ℕ) (p : Ptr), a.elems[i]? = some p → ∃ s, args[i]? = some s ∧ h.Stores p s

theorem slotsIn_arrayFits {len : ℤ} (hpos : 2 ≤ len) (hfits : ArrayFits len) :
    (slotsIn (intOf ((len + 1) * sizeofPtr)) : ℤ) = len + 1 := by
  rw [intOf_arrayFits hpos hfits, slotsIn, sizeofPtr]
  omega

theorem setSlot_eq {m : ArgvMem} {i : ℕ} (hi : i < m.slots.length) (p : Ptr) :
    m.setSlot i p = .ok { m with slots := m.slots.set i (some p) } :=
  if_pos ⟨Int.natCast_nonneg i, by exact_mod_cast hi⟩

/-- An array whose size fits starts with all its slots. -/
theorem argvMemAlloc_built {h : Heap} {len : ℤ} {rest : List Ptr} (ho : h.Owns rest)
    (hfits : ArrayFits (argvLen len 0)) :
    ∃ r, argvMemAlloc h len = .ok r ∧ r.1.Built r.2 len [] rest := by
  obtain ⟨⟨a, h'⟩, hr, hb⟩ := argvAlloc_built ho hfits
  obtain ⟨⟨self, h₁⟩, hself, hr⟩ := bind_ok_iff.1 hr
  obtain ⟨⟨argv, h₂⟩, hargv, hr⟩ := bind_ok_iff.1 hr
  obtain ⟨rfl, rfl⟩ := Prod.mk.inj (Except.ok.inj hr)
  have hsize := slotsIn_arrayFits (lt_argvLen len 0).2 hfits
  have hpos := (lt_argvLen len 0).2
  have hset := setSlot_eq (i := 0) (m := ⟨self, argvLen len 0, 0, argv,
    List.replicate (slotsIn (intOf ((argvLen len 0 + 1) * sizeofPtr))) none⟩) (by simp; omega) .null
  refine ⟨_, bind_ok_iff.2 ⟨_, heapCall_ok.2 hself, bind_ok_iff.2 ⟨_, heapCall_ok.2 hargv,
    bind_ok_iff.2 ⟨_, hset, rfl⟩⟩⟩, _, ⟨rfl, rfl, rfl, rfl, ?_, rfl⟩, hb, by simp⟩
  simpa using hsize

theorem Argv.Built.elems_length {a : Argv} {h : Heap} {len : ℤ} {args : List Bytes}
    {rest : List Ptr} (hb : a.Built h len args rest) : a.elems.length = args.length :=
  hb.copies.length_eq

theorem slots_grow {slots : List (Option Ptr)} {n k : ℕ} (hn : n ≤ slots.length)
    (hk : slots.length ≤ k) :
    (slots.take k ++ List.replicate (k - slots.length) none).length = k ∧
      (slots.take k ++ List.replicate (k - slots.length) none).take n = slots.take n := by
  rw [List.take_of_length_le hk]
  constructor
  · rw [List.length_append, List.length_replicate]
    omega
  · rw [List.take_append_of_le_length hn]

/-- The arrays grow alike. -/
theorem ArgvMem.Refines.grow {m : ArgvMem} {a : Argv} {h : Heap} {len : ℤ} {args : List Bytes}
    {rest : List Ptr} (hm : m.Refines a) (hb : a.Built h len args rest) :
    (∀ r, argvGrow h a = .ok r → ∃ m', argvMemGrow h m = .ok (m', r.2) ∧ m'.Refines r.1) ∧
    ∀ e, argvGrow h a = .error e → argvMemGrow h m = .error (.heap e) := by
  have hargc := hb.argc
  have hlen := hb.elems_length
  have hroom := lt_argvLen len args.length
  rw [← hb.len] at hroom
  have hsize := hm.size
  have hmlen := hm.len
  unfold argvGrow argvMemGrow
  rw [hm.len, hm.argc, hm.argv]
  by_cases hfull : a.argc + 1 ≥ a.len
  · rw [if_pos hfull, if_pos hfull]
    refine ⟨fun r hr => ?_, fun e he => ?_⟩
    · obtain ⟨⟨argv, h'⟩, hre, hr⟩ := bind_ok_iff.1 hr
      obtain rfl := Except.ok.inj hr
      have hfits : ArrayFits (a.len * 2) := by
        by_contra hno
        rw [myrealloc, if_pos (intOf_not_arrayFits hb.fits hno)] at hre
        cases hre
      have hk := slotsIn_arrayFits (by omega) hfits
      have hargs : a.elems.length ≤ m.slots.length := by omega
      have hroom' : m.slots.length ≤ slotsIn (intOf ((a.len * 2 + 1) * sizeofPtr)) := by omega
      obtain ⟨hlength, htake⟩ := slots_grow hargs hroom'
      refine ⟨_, bind_ok_iff.2 ⟨_, heapCall_ok.2 hre, rfl⟩, hm.self, rfl, rfl, rfl, ?_, ?_⟩
      · rw [hlength, hk]
      · exact htake.trans hm.elems
    · rcases bind_error_iff.1 he with he | ⟨r, -, he⟩
      · exact bind_error_iff.2 (.inl (heapCall_error.2 ⟨e, he, rfl⟩))
      · cases he
  · rw [if_neg hfull, if_neg hfull]
    refine ⟨fun r hr => ?_, fun e he => by cases he⟩
    obtain rfl := Except.ok.inj hr
    exact ⟨m, rfl, hm⟩

theorem take_set_length {α : Type} {l : List α} {n : ℕ} (hn : n < l.length) (x : α) :
    (l.set n x).take (n + 1) = l.take n ++ [x] := by
  rw [List.take_succ_eq_append_getElem (by simpa using hn), List.take_set_of_le le_rfl,
    List.getElem_set_self]

/-- The blocks of the elements are owned. -/
theorem Argv.mem_owned {a : Argv} {rest : List Ptr} {id : ℕ} (hid : .block id ∈ a.elems) :
    .block id ∈ a.self :: (a.elems.filter (· ≠ .emptyString) ++ rest) :=
  List.mem_cons_of_mem _ (List.mem_append_left _ (List.mem_filter.2 ⟨hid, by simp⟩))

/-- Growing keeps the elements and their blocks. -/
theorem Argv.Built.grow_elems {a : Argv} {h : Heap} {len : ℤ} {args : List Bytes}
    {rest : List Ptr} (hb : a.Built h len args rest) {r : Argv × Heap}
    (hr : argvGrow h a = .ok r) : r.1.elems = a.elems ∧ r.1.argc = a.argc ∧
      a.len ≤ r.1.len ∧ (∀ id, .block id ∈ a.elems → r.2.block id = h.block id) ∧
      ∃ ptrs, r.2.Owns ptrs ∧ ∀ id, .block id ∈ a.elems → .block id ∈ ptrs := by
  have hpos := (lt_argvLen len args.length).2
  rw [← hb.len] at hpos
  unfold argvGrow at hr
  split at hr
  · obtain ⟨⟨argv, h'⟩, hre, hr⟩ := bind_ok_iff.1 hr
    obtain rfl := Except.ok.inj hr
    refine ⟨rfl, rfl, ?_, fun id hid => ?_, _, hb.owned.myrealloc hre, fun id hid => ?_⟩
    · show a.len ≤ a.len * 2
      omega
    · exact hb.owned.myrealloc_block hre (mem_owned hid)
    · exact List.mem_cons_of_mem _ (mem_owned hid)
  · obtain rfl := Except.ok.inj hr
    exact ⟨rfl, rfl, le_rfl, fun _ _ => rfl, _, hb.owned,
      fun id hid => List.mem_cons_of_mem _ (mem_owned hid)⟩

/-- A copy is put behind others. -/
theorem copies_snoc {h : Heap} {elems : List Ptr} {args : List Bytes} {p : Ptr} {arg : Bytes}
    (hlen : elems.length = args.length)
    (hcopies : ∀ (i : ℕ) (q : Ptr), elems[i]? = some q → ∃ s, args[i]? = some s ∧ h.Stores q s)
    (hp : h.Stores p arg) (i : ℕ) (q : Ptr) (hq : (elems ++ [p])[i]? = some q) :
    ∃ s, (args ++ [arg])[i]? = some s ∧ h.Stores q s := by
  rcases Nat.lt_or_ge i elems.length with hi | hi
  · rw [List.getElem?_append_left hi] at hq
    obtain ⟨s, hs, hst⟩ := hcopies i q hq
    exact ⟨s, by rw [List.getElem?_append_left (by omega), hs], hst⟩
  · rw [List.getElem?_append_right hi] at hq
    obtain ⟨hi', rfl⟩ := List.getElem?_eq_some_iff.1 hq
    have hi₀ : i = args.length := by
      simp at hi'
      omega
    refine ⟨arg, by rw [hi₀, List.getElem?_append_right le_rfl, Nat.sub_self]; rfl, ?_⟩
    simpa using hp

/-- Where the allocator fails for the array of pointers, it fails for the array with slots. -/
theorem ArgvMem.Refines.addArg_error {m : ArgvMem} {a : Argv} {h : Heap} {len : ℤ}
    {args : List Bytes} {rest : List Ptr} (hm : m.Refines a) (ha : a.Built h len args rest)
    {arg : Bytes} {f : Fault} (hf : argvAddArg (a, h) arg = .error f) :
    argvMemAddArg (m, h) arg = .error (.heap f) := by
  rcases bind_error_iff.1 hf with hf | ⟨r, hgrow, hf⟩
  · exact bind_error_iff.2 (.inl ((hm.grow ha).2 f hf))
  · obtain ⟨m₁, hmgrow, -⟩ := (hm.grow ha).1 _ hgrow
    rcases bind_error_iff.1 hf with hf | ⟨r', hdup, hf⟩
    · exact bind_error_iff.2 (.inr ⟨_, hmgrow,
        bind_error_iff.2 (.inl (heapCall_error.2 ⟨f, hf, rfl⟩))⟩)
    · cases hf

/-- One argument is stored in the next slot, or the allocator does not return. -/
theorem ArgvMem.Built.add {m : ArgvMem} {h : Heap} {len : ℤ} {args : List Bytes}
    {rest : List Ptr} (hb : m.Built h len args rest) (arg : Bytes) :
    ((StrFits arg ∧ ArrayFits (argvLen len (args.length + 1))) ∧
      ∃ r, argvMemAddArg (m, h) arg = .ok r ∧ r.1.Built r.2 len (args ++ [arg]) rest) ∨
    (¬(StrFits arg ∧ ArrayFits (argvLen len (args.length + 1))) ∧
      ∃ f, argvMemAddArg (m, h) arg = .error (.heap f)) := by
  obtain ⟨a, hm, ha, hstores⟩ := hb
  have hiff := ha.add_isOk arg
  by_cases hfits : StrFits arg ∧ ArrayFits (argvLen len (args.length + 1))
  · obtain ⟨⟨a₂, h₂⟩, hr⟩ := hiff.2 hfits
    have ha₂ := ha.add hr
    refine .inl ⟨hfits, ?_⟩
    obtain ⟨⟨a₁, h₁⟩, hgrow, hr⟩ := bind_ok_iff.1 hr
    obtain ⟨⟨p, h₂⟩, hdup, hr⟩ := bind_ok_iff.1 hr
    obtain ⟨rfl, rfl⟩ := Prod.mk.inj (Except.ok.inj hr)
    obtain ⟨m₁, hmgrow, hm₁⟩ := (hm.grow ha).1 _ hgrow
    obtain ⟨helems, hargc, hle, hblock, ptrs, howns, hmem⟩ := ha.grow_elems hgrow
    have hlen := ha.elems_length
    have hroom := (lt_argvLen len args.length).1
    rw [← ha.len] at hroom
    have hargc₁ : m₁.argc = a₁.elems.length := by
      rw [hm₁.argc, hargc, ha.argc, helems, hlen]
    have hslot : a₁.elems.length < m₁.slots.length := by
      have hsize := hm₁.size
      rw [hm₁.len] at hsize
      rw [helems, hlen]
      simp only at hle hsize
      omega
    have hset := setSlot_eq hslot p
    rw [← hargc₁] at hset
    refine ⟨_, bind_ok_iff.2 ⟨_, hmgrow, bind_ok_iff.2 ⟨_, heapCall_ok.2 hdup,
      bind_ok_iff.2 ⟨_, hset, rfl⟩⟩⟩,
      ⟨a₁.self, a₁.len, a₁.argc + 1, a₁.argv, a₁.elems ++ [p]⟩,
      ⟨hm₁.self, hm₁.len, ?_, hm₁.argv, ?_, ?_⟩, ha₂, ?_⟩
    · exact congrArg (· + 1) hm₁.argc
    · simpa using hm₁.size
    · simp only [List.length_append, List.length_singleton, List.map_append, List.map_singleton]
      rw [take_set_length hslot, hm₁.elems]
    · simp only at helems
      rw [helems]
      refine copies_snoc hlen (fun i q hq => ?_) (mystrdup_stores hdup)
      obtain ⟨s, hs, hst⟩ := hstores i q hq
      refine ⟨s, hs, hst.congr ?_⟩
      rintro id rfl
      have hid := List.mem_of_getElem? hq
      exact (howns.mystrdup_block hdup (hmem id hid)).trans (hblock id hid)
  · refine .inr ⟨hfits, ?_⟩
    cases hr : argvAddArg (a, h) arg with
    | error f => exact ⟨f, hm.addArg_error ha hr⟩
    | ok r => exact absurd (hiff.1 ⟨r, hr⟩) hfits

namespace ArgvMem.Built

variable {m : ArgvMem} {h : Heap} {len : ℤ} {args : List Bytes} {rest : List Ptr}

/-- Arguments are stored one after the other, or the allocator does not return. -/
theorem addAll (args' : List Bytes) : ∀ {m : ArgvMem} {h : Heap} {args : List Bytes},
    m.Built h len args rest →
    (((∀ arg ∈ args', StrFits arg) ∧ ArrayFits (argvLen len (args.length + args'.length))) ∧
      ∃ r, argvMemAdd (m, h) args' = .ok r ∧ r.1.Built r.2 len (args ++ args') rest) ∨
    (¬((∀ arg ∈ args', StrFits arg) ∧ ArrayFits (argvLen len (args.length + args'.length))) ∧
      ∃ f, argvMemAdd (m, h) args' = .error (.heap f)) := by
  induction args' with
  | nil =>
    intro m h args hb
    have hfits : ArrayFits (argvLen len args.length) := by
      obtain ⟨a, -, ha, -⟩ := hb
      exact ha.len ▸ ha.fits
    exact .inl ⟨⟨by simp, by simpa using hfits⟩, (m, h), rfl, by simpa using hb⟩
  | cons arg args' ih =>
    intro m h args hb
    have hlen : args.length + (arg :: args').length = (args ++ [arg]).length + args'.length := by
      simp only [List.length_cons, List.length_append, List.length_nil]
      omega
    have hle : argvLen len (args.length + 1) ≤
        argvLen len ((args ++ [arg]).length + args'.length) := argvLen_mono len (by simp)
    rw [hlen, List.forall_mem_cons]
    rcases hb.add arg with ⟨⟨harg, -⟩, r, hr, hb'⟩ | ⟨hno, f, hf⟩
    · have hrun : argvMemAdd (m, h) (arg :: args') = argvMemAdd r args' := bindOk hr
      rw [hrun, and_iff_right harg]
      simpa using ih hb'
    · refine .inr ⟨fun hfits => hno ⟨hfits.1.1, arrayFits_of_le hfits.2 hle⟩, f, ?_⟩
      exact bind_error_iff.2 (.inl hf)

/-- The terminator fits behind the last element. -/
theorem terminate (hb : m.Built h len args rest) :
    ∃ m', argvMemTerminate m = .ok m' ∧ m'.Built h len args rest ∧
      m'.slots[args.length]? = some (some .null) := by
  obtain ⟨a, hm, ha, hstores⟩ := hb
  have hlen := ha.elems_length
  have hroom := (lt_argvLen len args.length).1
  rw [← ha.len, ← hm.len] at hroom
  have hsize := hm.size
  have hslot : args.length < m.slots.length := by omega
  have hset := setSlot_eq hslot .null
  rw [← ha.argc, ← hm.argc] at hset
  refine ⟨_, hset, ⟨a, ⟨hm.self, hm.len, hm.argc, hm.argv, ?_, ?_⟩, ha, hstores⟩, ?_⟩
  · simpa using hm.size
  · simpa only [hlen, List.take_set_of_le le_rfl] using hm.elems
  · rw [List.getElem?_set_self hslot]

/-- A new block joins the rest. -/
theorem fresh (hb : m.Built h len args rest) {r : Ptr × Heap} (hr : h.Fresh r) :
    m.Built r.2 len args (r.1 :: rest) := by
  obtain ⟨a, hm, ha, hstores⟩ := hb
  refine ⟨a, hm, ha.fresh hr, fun i p hp => ?_⟩
  obtain ⟨s, hs, hst⟩ := hstores i p hp
  refine ⟨s, hs, hst.congr ?_⟩
  rintro id rfl
  obtain ⟨id', -, he, hlt, -⟩ := ha.owned.valid _
    (List.mem_cons_of_mem _ (Argv.mem_owned (List.mem_of_getElem? hp)))
  obtain rfl := Ptr.block.inj he
  exact hr.block_eq hlt

/-- A block of the rest can be freed. -/
theorem release {p : Ptr} (hb : m.Built h len args (p :: rest)) :
    myfree h p = .ok (h.free p) ∧ m.Built (h.free p) len args rest := by
  obtain ⟨a, hm, ha, hstores⟩ := hb
  refine ⟨ha.release.1, a, hm, ha.release.2, fun i q hq => ?_⟩
  obtain ⟨s, hs, hst⟩ := hstores i q hq
  refine ⟨s, hs, hst.congr ?_⟩
  rintro id rfl
  refine Heap.free_block_eq fun he => ?_
  have hnd := (List.nodup_cons.1 (List.nodup_cons.1 ha.owned.nodup).2).2
  have hid : Ptr.block id ∈ a.elems.filter (· ≠ .emptyString) :=
    List.mem_filter.2 ⟨List.mem_of_getElem? hq, by simp⟩
  exact (List.nodup_append.1 hnd).2.2 _ hid _ List.mem_cons_self he.symm

end ArgvMem.Built

/-! ## Splitting -/

theorem length_strtokAll_le (sep s : Bytes) : (strtokAll sep s).length ≤ s.length := by
  induction s using @strtok_induction sep with
  | nil => exact le_rfl
  | blank c s hc ih =>
    rw [strtokAll_cons_sep hc, List.length_cons]
    omega
  | token c s hc ih =>
    have hle := List.length_dropWhile_le (· ∉ sep) s
    rw [strtokAll_cons hc, List.length_cons, List.length_cons]
    omega

/-- The loop adds the tokens, one in each turn. -/
theorem argvSplitLoop_eq (delim : Bytes) : ∀ (turns : ℕ) (done : Bytes) {rest : Bytes}
    (r : ArgvMem × Heap), 0 ∉ rest →
    argvSplitLoop delim turns (done ++ (rest ++ [0])) done.length r =
      argvMemAdd r ((strtokAll delim rest).take turns)
  | 0, _, _, _, _ => by simp [argvSplitLoop, argvMemAdd]
  | turns + 1, done, rest, r, h0 => by
    rw [strtokAll_eq, argvSplitLoop]
    rcases mystrtokAt_step delim done h0 with ⟨hnone, hcall⟩ |
      ⟨tok, rest', gone, start, hm, h0', -, -, hcall, hstr⟩
    · have hm : mystrtok rest delim = (none, (mystrtok rest delim).2) := by rw [← hnone]
      rw [hm, bindOk (heapCall_ok.2 (hcall []))]
      rfl
    · rw [hm, bindOk (heapCall_ok.2 (hcall []))]
      simp only [List.take_succ_cons]
      rw [hstr rest' [] rfl]
      have hloop (r : ArgvMem × Heap) :
          argvSplitLoop delim turns (done ++ gone ++ (rest' ++ [0])) (done ++ gone).length r =
            argvMemAdd r ((strtokAll delim rest').take turns) :=
        argvSplitLoop_eq delim turns (done ++ gone) r h0'
      simp only [hloop]
      simp [argvMemAdd]

/-- The string is split, or the allocator does not return. -/
theorem ArgvMem.Built.splitAppend {m : ArgvMem} {h : Heap} {len : ℤ} {args : List Bytes}
    {rest : List Ptr} (hb : m.Built h len args rest) {string : Bytes} (h0 : 0 ∉ string)
    (delim : Bytes) :
    ((string ≠ [] ∧ StrFits string ∧
        ArrayFits (argvLen len (args.length + (runs delim string).length))) ∧
      ∃ r, argvMemSplitAppend (m, h) string delim = .ok r ∧
        r.1.Built r.2 len (args ++ runs delim string) rest ∧
        r.1.slots[(args ++ runs delim string).length]? = some (some .null)) ∨
    (¬(string ≠ [] ∧ StrFits string ∧
        ArrayFits (argvLen len (args.length + (runs delim string).length))) ∧
      ∃ f, argvMemSplitAppend (m, h) string delim = .error (.heap f)) := by
  have htoks : ∀ arg ∈ runs delim string, arg.length ≤ string.length := by
    rw [← strtokAll_eq_runs]
    exact length_le_of_mem_strtokAll
  have hturns : (runs delim string).length ≤ (string ++ [0]).length := by
    have hle := length_strtokAll_le delim string
    rw [strtokAll_eq_runs] at hle
    simp
    omega
  cases hdup : mystrdup h (some string) with
  | error f =>
    refine .inr ⟨fun hfits => ?_, f, ?_⟩
    · obtain ⟨r, hr⟩ := (mystrdup_isOk h string).2 hfits.2.1
      cases hdup.symm.trans hr
    · exact bind_error_iff.2 (.inl (heapCall_error.2 ⟨f, hdup, rfl⟩))
  | ok r =>
    have hstr : StrFits string := (mystrdup_isOk h string).1 ⟨r, hdup⟩
    have hcode : argvMemSplitAppend (m, h) string delim = (do
        let (argvp, h) ← argvMemAdd (m, r.2) (runs delim string)
        let argvp ← argvMemTerminate argvp
        let h ← heapCall (myfree h r.1)
        pure (argvp, h)) := by
      unfold argvMemSplitAppend
      rw [bindOk (heapCall_ok.2 hdup)]
      simp only
      rw [bindOk (heapCall_ok.2 (mystrdup_stores hdup).bytesAt)]
      have hloop := argvSplitLoop_eq delim (string ++ [0]).length [] (m, r.2) h0
      rw [strtokAll_eq_runs, List.take_of_length_le hturns, List.nil_append] at hloop
      simp only [List.length_nil] at hloop
      rw [hloop]
    rw [hcode]
    rcases mystrdup_ok hdup with ⟨rfl, rfl⟩ | ⟨hne, hfresh⟩
    -- there is no token, and the shared empty string cannot be freed
    · refine .inr ⟨fun hfits => hfits.1 rfl, .panic (.corruptOrUnallocated "myfree"), ?_⟩
      obtain ⟨m', hterm, -⟩ := hb.terminate
      have hadd : argvMemAdd (m, h) (runs delim []) = .ok (m, h) := rfl
      rw [bindOk hadd]
      simp only
      rw [bindOk hterm]
      exact bind_error_iff.2 (.inl (heapCall_error.2 ⟨_, Heap.myfree_emptyString h, rfl⟩))
    · have hall : ∀ arg ∈ runs delim string, StrFits arg := by
        intro arg harg
        have hle := htoks arg harg
        unfold StrFits at *
        omega
      rcases addAll (runs delim string) (hb.fresh hfresh) with
        ⟨⟨-, hfits⟩, r₂, hadd, hb₂⟩ | ⟨hno, f, hf⟩
      · obtain ⟨m₃, hterm, hb₃, hnull⟩ := hb₂.terminate
        obtain ⟨hfree, hb₄⟩ := hb₃.release
        refine .inl ⟨⟨hne, hstr, hfits⟩, (m₃, r₂.2.free r.1), ?_, hb₄, hnull⟩
        rw [bindOk hadd]
        simp only
        rw [bindOk hterm, bindOk (heapCall_ok.2 hfree)]
        rfl
      · exact .inr ⟨fun hfits => hno ⟨hall, hfits.2.2⟩, f, bind_error_iff.2 (.inl hf)⟩

/-! ## The vector -/

/-- The first slots hold copies of `args`, in order, in an array that has a slot for each element
and one for the terminator. -/
structure ArgvMem.Holds (m : ArgvMem) (h : Heap) (args : List Bytes) : Prop where
  argc : m.argc = args.length
  lt : m.argc < m.len
  size : (m.slots.length : ℤ) = m.len + 1
  elems : ∀ (i : ℕ) (s : Bytes), args[i]? = some s →
    ∃ p, m.slots[i]? = some (some p) ∧ h.Stores p s

/-- The array is `args` and a null pointer behind them. -/
structure ArgvMem.IsVector (m : ArgvMem) (h : Heap) (args : List Bytes) : Prop
    extends m.Holds h args where
  terminator : m.slots[args.length]? = some (some .null)

theorem ArgvMem.Built.holds {m : ArgvMem} {h : Heap} {len : ℤ} {args : List Bytes}
    {rest : List Ptr} (hb : m.Built h len args rest) : m.Holds h args := by
  obtain ⟨a, hm, ha, hstores⟩ := hb
  have hroom := (lt_argvLen len args.length).1
  have hlen := ha.elems_length
  refine ⟨hm.argc.trans ha.argc, ?_, hm.size, fun i s hs => ?_⟩
  · rw [hm.argc, ha.argc, hm.len, ha.len]
    omega
  · obtain ⟨hi, -⟩ := List.getElem?_eq_some_iff.1 hs
    obtain ⟨p, hp⟩ : ∃ p, a.elems[i]? = some p := ⟨_, List.getElem?_eq_getElem (hlen ▸ hi)⟩
    obtain ⟨s', hs', hst⟩ := hstores i _ hp
    obtain rfl := Option.some.inj (hs.symm.trans hs')
    refine ⟨_, ?_, hst⟩
    rw [← List.getElem?_take_of_lt (show i < a.elems.length by omega), hm.elems,
      List.getElem?_map, hp]
    rfl

end Nowra
