import Mathlib.Algebra.Ring.Int.Defs
import Mathlib.Algebra.Ring.Nat
import Mathlib.Data.List.Nodup
import Mathlib.Logic.Function.Basic
import Nowra.Msg
import Nowra.Run

/-!
# The allocator

`mymalloc.c` : blocks with a header, a signature and the length that was asked for, which
`myfree` and `myrealloc` check. `mystrdup` and `mystrndup` return a shared constant for the empty
string. The constant has no header.

A program gets pointers and gives each one back at most once (`allocSystem`). What it gives back
passes the check if and only if it was not made from an empty string (`live_released_iff`).

Memory is a set of blocks with their bytes. An access outside a block ends a run, as a panic
does (`Fault`). When `malloc` fails the process exits, and there is no step.
-/

namespace Nowra

/-! ## Machine integers -/

/-- Conversion to `int`. -/
def intOf (n : ℤ) : ℤ := (n + 2 ^ 31) % 2 ^ 32 - 2 ^ 31

theorem intOf_eq {n : ℤ} (h : 0 ≤ n) (h' : n < 2 ^ 31) : intOf n = n := by
  unfold intOf
  omega

/-- Conversion to `size_t`. -/
def sizeTOf (n : ℤ) : ℕ := (n % 2 ^ 64).toNat

/-- Conversion to `unsigned`. -/
def unsignedOf (n : ℤ) : ℕ := (n % 2 ^ 32).toNat

/-- A length from `2 ^ 31` on becomes a smaller `int`. -/
theorem intOf_lt {n : ℤ} (h : 2 ^ 31 ≤ n) : intOf n < n := by
  unfold intOf
  omega

/-! ## Blocks -/

/-- A byte string. As a C string it ends before its first null byte. -/
abbrev Bytes := List (BitVec 8)

instance decidableMemBytes (c : BitVec 8) (s : Bytes) : Decidable (c ∈ s) :=
  inferInstanceAs (Decidable (c ∈ s))

/-- How code that handles memory goes wrong. -/
inductive Fault
  | panic (p : Panic)
  /-- An access outside a block. -/
  | outside
  deriving DecidableEq

/-- A block with its header. -/
structure MBlock where
  signature : ℤ
  length : ℤ
  payload : Bytes

/-- `SIGNATURE` -/
def mblockSignature : ℤ := 0xdead

/-- `FILLER` -/
def mblockFiller : BitVec 8 := 0xff

/-- Where a `char *` points. -/
inductive Ptr
  | null
  /-- The shared `empty_string`. -/
  | emptyString
  /-- The payload of a block. -/
  | block (id : ℕ)
  deriving DecidableEq

/-- The allocated blocks. An address is not used again. -/
structure Heap where
  block : ℕ → Option MBlock
  /-- The address `malloc` returns next. -/
  next : ℕ

/-- Before the first call. -/
def heapInit : Heap := ⟨fun _ => none, 0⟩

/-- The header in front of an address. There is none in front of `empty_string`. -/
def Heap.header (h : Heap) : Ptr → Option MBlock
  | .block id => h.block id
  | .null | .emptyString => none

/-- `CHECK_IN_PTR` -/
def checkInPtr (h : Heap) (ptr : Ptr) (fname : String) : Except Fault MBlock :=
  if ptr = .null then throw (.panic (.nullPointerInput fname))
  else
    match h.header ptr with
    | none => throw (.panic (.corruptOrUnallocated fname))
    | some realPtr =>
      if realPtr.signature ≠ mblockSignature then throw (.panic (.corruptOrUnallocated fname))
      else if realPtr.length < 1 then throw (.panic (.corruptBlockLength fname))
      else pure realPtr

/-- `malloc` with `CHECK_OUT_PTR`. -/
def Heap.checkOut (h : Heap) (len : ℤ) (payload : Bytes) : Ptr × Heap :=
  (.block h.next,
    ⟨Function.update h.block h.next (some ⟨mblockSignature, len, payload⟩), h.next + 1⟩)

/-- `free`. -/
def Heap.free (h : Heap) : Ptr → Heap
  | .block id => { h with block := Function.update h.block id none }
  | .null | .emptyString => h

/-- Allocate a block, filled with `FILLER`. -/
def mymalloc (h : Heap) (len : ℤ) : Except Fault (Ptr × Heap) :=
  if len < 1 then throw (.panic (.requestedLength "mymalloc" len))
  else pure (h.checkOut len (List.replicate len.toNat mblockFiller))

/-- The bytes of a block that is reallocated. What is new is filled with `FILLER`. -/
def reallocPayload (payload : Bytes) (oldLen len : ℤ) : Bytes :=
  payload.take len.toNat ++ List.replicate (len - oldLen).toNat mblockFiller

/-- Reallocate a block. -/
def myrealloc (h : Heap) (ptr : Ptr) (len : ℤ) : Except Fault (Ptr × Heap) :=
  if len < 1 then throw (.panic (.requestedLength "myrealloc" len))
  else do
    let realPtr ← checkInPtr h ptr "myrealloc"
    pure ((h.free ptr).checkOut len (reallocPayload realPtr.payload realPtr.length len))

/-- Release a block. -/
def myfree (h : Heap) (ptr : Ptr) : Except Fault Heap := do
  let _ ← checkInPtr h ptr "myfree"
  pure (h.free ptr)

/-- Store bytes at the start of a block. -/
def Heap.store (h : Heap) (ptr : Ptr) (bytes : Bytes) : Except Fault Heap :=
  match ptr with
  | .null | .emptyString => throw .outside
  | .block id =>
    match h.block id with
    | none => throw .outside
    | some b =>
      if b.payload.length < bytes.length then throw .outside
      else
        let b := { b with payload := bytes ++ b.payload.drop bytes.length }
        pure { h with block := Function.update h.block id (some b) }

/-- Allocate a block and store bytes in it. -/
def mallocStore (h : Heap) (len : ℤ) (bytes : Bytes) : Except Fault (Ptr × Heap) := do
  let (ptr, h) ← mymalloc h len
  let h ← h.store ptr bytes
  pure (ptr, h)

/-- Save a string. The string has no null byte, and nothing is a null pointer. -/
def mystrdup (h : Heap) (str : Option Bytes) : Except Fault (Ptr × Heap) :=
  match str with
  | none => throw (.panic (.nullPointerArgument "mystrdup"))
  | some str =>
    if str = [] then pure (.emptyString, h)
    else mallocStore h (intOf (str.length + 1)) (str ++ [0])

/-- What `mystrndup` copies : the bytes before the first null byte, `len` at most. -/
def strPrefix (str : Bytes) (len : ℕ) : Bytes := (str.take len).takeWhile (· ≠ 0)

/-- Save a substring of the memory at `str`. -/
def mystrndup (h : Heap) (str : Option Bytes) (len : ℕ) : Except Fault (Ptr × Heap) :=
  match str with
  | none => throw (.panic (.nullPointerArgument "mystrndup"))
  | some str =>
    match str with
    | [] => throw .outside
    | c :: _ =>
      if c = 0 then pure (.emptyString, h)
      else if str.length < len ∧ 0 ∉ str then throw .outside
      else mallocStore h (intOf ((strPrefix str len).length + 1)) (strPrefix str len ++ [0])

/-- Copy memory. -/
def mymemdup (h : Heap) (ptr : Option Bytes) : Except Fault (Ptr × Heap) :=
  match ptr with
  | none => throw (.panic (.nullPointerArgument "mymemdup"))
  | some ptr => mallocStore h (intOf ptr.length) ptr

/-! ## Bytes up to a null byte -/

theorem takeWhile_null_cons {c : BitVec 8} (hc : c ≠ 0) (s : Bytes) :
    (c :: s).takeWhile (· ≠ 0) = c :: s.takeWhile (· ≠ 0) :=
  List.takeWhile_cons_of_pos (decide_eq_true hc)

theorem takeWhile_null_of_notMem {s : Bytes} (h0 : 0 ∉ s) : s.takeWhile (· ≠ 0) = s := by
  induction s with
  | nil => rfl
  | cons c s ih =>
    obtain ⟨hc, h0⟩ := not_or.1 (List.mem_cons.not.1 h0)
    rw [takeWhile_null_cons (Ne.symm hc), ih h0]

/-- What is behind the null byte does not matter. -/
theorem takeWhile_null_append (s rest : Bytes) :
    (s ++ 0 :: rest).takeWhile (· ≠ 0) = s.takeWhile (· ≠ 0) := by
  induction s with
  | nil => rfl
  | cons c s ih =>
    by_cases hc : c = 0
    · rw [List.cons_append, List.takeWhile_cons_of_neg (by simp [hc]),
        List.takeWhile_cons_of_neg (by simp [hc])]
    · rw [List.cons_append, takeWhile_null_cons hc, takeWhile_null_cons hc, ih]

/-! ## What the operations do -/

/-- The block passes `CHECK_IN_PTR`. -/
def MBlock.Valid (b : MBlock) : Prop := b.signature = mblockSignature ∧ 1 ≤ b.length

/-- `r` is a new block and the heap with it. -/
def Heap.Fresh (h : Heap) (r : Ptr × Heap) : Prop :=
  r.1 = .block h.next ∧ ∃ b : MBlock, b.Valid ∧
    r.2 = ⟨Function.update h.block h.next (some b), h.next + 1⟩

theorem fresh_checkOut (h : Heap) {len : ℤ} (hlen : 1 ≤ len) (payload : Bytes) :
    h.Fresh (h.checkOut len payload) :=
  ⟨rfl, _, ⟨rfl, hlen⟩, rfl⟩

/-- A length that is no length panics, and nothing else does. -/
theorem mymalloc_spec (h : Heap) (len : ℤ) :
    (len < 1 ∧ mymalloc h len = .error (.panic (.requestedLength "mymalloc" len))) ∨
    (1 ≤ len ∧ ∃ r, mymalloc h len = .ok r ∧ h.Fresh r) := by
  unfold mymalloc
  by_cases hlen : len < 1
  · exact Or.inl ⟨hlen, by rw [if_pos hlen]; rfl⟩
  · have hlen' : 1 ≤ len := Int.not_lt.1 hlen
    exact Or.inr ⟨hlen', _, by rw [if_neg hlen]; rfl, fresh_checkOut h hlen' _⟩

theorem mymalloc_ok {h : Heap} {len : ℤ} {r : Ptr × Heap} (hr : mymalloc h len = .ok r) :
    h.Fresh r := by
  rcases mymalloc_spec h len with ⟨-, herr⟩ | ⟨-, r', hok, hfresh⟩
  · cases herr.symm.trans hr
  · obtain rfl := Except.ok.inj (hok.symm.trans hr)
    exact hfresh

theorem mallocStore_eq (h : Heap) (len : ℤ) (bytes : Bytes) : mallocStore h len bytes =
    if len < 1 then .error (.panic (.requestedLength "mymalloc" len))
    else if len < bytes.length then .error .outside
    else .ok (h.checkOut len
      (bytes ++ (List.replicate len.toNat mblockFiller).drop bytes.length)) := by
  unfold mallocStore mymalloc
  by_cases hlen : len < 1
  · rw [if_pos hlen, if_pos hlen]
    rfl
  · rw [if_neg hlen, if_neg hlen]
    have hiff : len.toNat < bytes.length ↔ len < bytes.length := by omega
    by_cases hfit : len < bytes.length
    · simp [Heap.checkOut, Heap.store, hiff, hfit]
      rfl
    · simp [Heap.checkOut, Heap.store, hiff, hfit]
      rfl

theorem mallocStore_ok {h : Heap} {len : ℤ} {bytes : Bytes} {r : Ptr × Heap}
    (hr : mallocStore h len bytes = .ok r) : h.Fresh r := by
  rw [mallocStore_eq] at hr
  split at hr
  · cases hr
  · rename_i hlen
    split at hr
    · cases hr
    · obtain rfl := Except.ok.inj hr
      exact fresh_checkOut h (Int.not_lt.1 hlen) _

/-- Bytes are stored if and only if their number is an `int`. -/
theorem mallocStore_isOk (h : Heap) {bytes : Bytes} (hne : bytes ≠ []) :
    (∃ r, mallocStore h (intOf bytes.length) bytes = .ok r) ↔ bytes.length < 2 ^ 31 := by
  have hpos : 0 < bytes.length := List.length_pos_iff.2 hne
  rw [mallocStore_eq]
  constructor
  · rintro ⟨r, hr⟩
    by_contra hlarge
    have hlt : intOf bytes.length < bytes.length := intOf_lt (by omega)
    rw [if_pos hlt] at hr
    split at hr <;> cases hr
  · intro hlen
    have heq : intOf bytes.length = bytes.length := intOf_eq (by omega) (by omega)
    rw [heq, if_neg (by omega), if_neg (by omega)]
    exact ⟨_, rfl⟩

/-- A string is shared if it is empty, and is stored with its null byte otherwise. -/
theorem mystrdup_ok {h : Heap} {str : Bytes} {r : Ptr × Heap}
    (hr : mystrdup h (some str) = .ok r) :
    (str = [] ∧ r = (.emptyString, h)) ∨ (str ≠ [] ∧ h.Fresh r) := by
  unfold mystrdup at hr
  by_cases hstr : str = []
  · simp only [if_pos hstr] at hr
    exact Or.inl ⟨hstr, (Except.ok.inj hr).symm⟩
  · simp only [if_neg hstr] at hr
    exact Or.inr ⟨hstr, mallocStore_ok hr⟩

theorem mystrdup_isOk (h : Heap) (str : Bytes) :
    (∃ r, mystrdup h (some str) = .ok r) ↔ str.length + 1 < 2 ^ 31 := by
  unfold mystrdup
  by_cases hstr : str = []
  · simp only [hstr]
    exact iff_of_true ⟨_, rfl⟩ (by decide)
  · have hlen : ((str ++ [0]).length : ℤ) = str.length + 1 := by simp
    simp only [if_neg hstr]
    rw [← hlen, mallocStore_isOk h (by simp), List.length_append, List.length_singleton]

theorem mystrndup_ok {h : Heap} {str : Bytes} {len : ℕ} {r : Ptr × Heap}
    (hr : mystrndup h (some str) len = .ok r) :
    (str.head? = some 0 ∧ r = (.emptyString, h)) ∨ (str.head? ≠ some 0 ∧ h.Fresh r) := by
  cases str with
  | nil => cases hr
  | cons c str =>
    simp only [mystrndup] at hr
    by_cases hc : c = 0
    · rw [if_pos hc] at hr
      exact Or.inl ⟨by simp [hc], (Except.ok.inj hr).symm⟩
    · rw [if_neg hc] at hr
      split at hr
      · cases hr
      · exact Or.inr ⟨by simpa using hc, mallocStore_ok hr⟩

/-- An address passes the check if and only if there is a valid block. -/
theorem checkInPtr_ok_iff {h : Heap} {ptr : Ptr} {fname : String} {b : MBlock} :
    checkInPtr h ptr fname = .ok b ↔ h.header ptr = some b ∧ b.Valid := by
  unfold checkInPtr MBlock.Valid
  cases ptr with
  | null => exact ⟨nofun, nofun⟩
  | emptyString => exact ⟨nofun, nofun⟩
  | block id =>
    simp only [Heap.header, reduceCtorEq, if_false]
    cases hb : h.block id with
    | none => exact ⟨nofun, nofun⟩
    | some c =>
      simp only
      split
      · rename_i hsig
        refine ⟨nofun, ?_⟩
        rintro ⟨he, hval, -⟩
        exact absurd (Option.some.inj he ▸ hval) hsig
      · rename_i hsig
        split
        · rename_i hlen
          refine ⟨nofun, ?_⟩
          rintro ⟨he, -, hval⟩
          rw [← Option.some.inj he] at hval
          omega
        · rename_i hlen
          constructor
          · intro he
            obtain rfl := Except.ok.inj he
            exact ⟨rfl, not_not.1 hsig, Int.not_lt.1 hlen⟩
          · rintro ⟨he, -⟩
            exact congrArg Except.ok (Option.some.inj he)

theorem myfree_ok_iff {h h' : Heap} {ptr : Ptr} :
    myfree h ptr = .ok h' ↔ (∃ b, h.header ptr = some b ∧ b.Valid) ∧ h' = h.free ptr := by
  unfold myfree
  rw [bind_ok_iff]
  constructor
  · rintro ⟨b, hb, hr⟩
    exact ⟨⟨b, checkInPtr_ok_iff.1 hb⟩, (Except.ok.inj hr).symm⟩
  · rintro ⟨⟨b, hb⟩, rfl⟩
    exact ⟨b, checkInPtr_ok_iff.2 hb, rfl⟩

/-- A reallocation frees the old block and returns a new one. -/
theorem myrealloc_ok {h : Heap} {ptr : Ptr} {len : ℤ} {r : Ptr × Heap}
    (hr : myrealloc h ptr len = .ok r) :
    (∃ b, h.header ptr = some b ∧ b.Valid) ∧ (h.free ptr).Fresh r := by
  unfold myrealloc at hr
  split at hr
  · cases hr
  · rename_i hlen
    obtain ⟨b, hb, hr⟩ := bind_ok_iff.1 hr
    obtain rfl := Except.ok.inj hr
    exact ⟨⟨b, checkInPtr_ok_iff.1 hb⟩, fresh_checkOut _ (Int.not_lt.1 hlen) _⟩

theorem myrealloc_isOk {h : Heap} {ptr : Ptr} {len : ℤ} (hlen : 1 ≤ len) :
    (∃ r, myrealloc h ptr len = .ok r) ↔ ∃ b, h.header ptr = some b ∧ b.Valid := by
  constructor
  · rintro ⟨r, hr⟩
    exact (myrealloc_ok hr).1
  · rintro ⟨b, hb⟩
    unfold myrealloc
    rw [if_neg (Int.not_lt.2 hlen)]
    exact ⟨_, bind_ok_iff.2 ⟨b, checkInPtr_ok_iff.2 hb, rfl⟩⟩

/-! ## Owned addresses -/

/-- The addresses are those of valid blocks, each another one. -/
structure Heap.Owns (h : Heap) (ptrs : List Ptr) : Prop where
  valid : ∀ p ∈ ptrs, ∃ id b, p = .block id ∧ id < h.next ∧ h.block id = some b ∧ b.Valid
  nodup : ptrs.Nodup

namespace Heap

variable {h : Heap} {ptr : Ptr} {ptrs : List Ptr}

theorem owns_nil (h : Heap) : h.Owns [] := ⟨by simp, List.nodup_nil⟩

theorem Owns.perm {ptrs' : List Ptr} (ho : h.Owns ptrs) (hp : ptrs.Perm ptrs') : h.Owns ptrs' :=
  ⟨fun p hm => ho.valid p (hp.mem_iff.2 hm), hp.nodup_iff.1 ho.nodup⟩

/-- A new block joins the ones that are owned. -/
theorem Owns.fresh {r : Ptr × Heap} (ho : h.Owns ptrs) (hr : h.Fresh r) :
    r.2.Owns (r.1 :: ptrs) := by
  obtain ⟨hptr, b, hb, heap⟩ := hr
  rw [hptr, heap]
  constructor
  · intro p hp
    rcases List.mem_cons.1 hp with rfl | hp
    · exact ⟨h.next, b, rfl, Nat.lt_succ_self _, Function.update_self _ _ _, hb⟩
    · obtain ⟨id, c, rfl, hid, hc, hv⟩ := ho.valid p hp
      exact ⟨id, c, rfl, Nat.lt_succ_of_lt hid,
        (Function.update_of_ne (Nat.ne_of_lt hid) _ _).trans hc, hv⟩
  · refine List.nodup_cons.2 ⟨fun hmem => ?_, ho.nodup⟩
    obtain ⟨id, -, he, hid, -⟩ := ho.valid _ hmem
    obtain rfl := Ptr.block.inj he
    exact absurd hid (Nat.lt_irrefl _)

/-- Freeing one block leaves the others. -/
theorem Owns.free (ho : h.Owns (ptr :: ptrs)) : (h.free ptr).Owns ptrs := by
  obtain ⟨hmem, hnd⟩ := List.nodup_cons.1 ho.nodup
  refine ⟨fun p hp => ?_, hnd⟩
  obtain ⟨id, b, rfl, hid, hb, hv⟩ := ho.valid p (List.mem_cons_of_mem _ hp)
  obtain ⟨id', -, rfl, -⟩ := ho.valid ptr List.mem_cons_self
  have hne : id ≠ id' := fun he => hmem (he ▸ hp)
  exact ⟨id, b, rfl, hid, (Function.update_of_ne hne _ _).trans hb, hv⟩

theorem Owns.header (ho : h.Owns ptrs) (hp : ptr ∈ ptrs) :
    ∃ b, h.header ptr = some b ∧ b.Valid := by
  obtain ⟨id, b, rfl, -, hb, hv⟩ := ho.valid ptr hp
  exact ⟨b, hb, hv⟩

theorem Owns.ne_emptyString (ho : h.Owns ptrs) (hp : ptr ∈ ptrs) : ptr ≠ .emptyString := by
  obtain ⟨id, b, rfl, -⟩ := ho.valid ptr hp
  simp

theorem Owns.myfree (ho : h.Owns (ptr :: ptrs)) :
    myfree h ptr = .ok (h.free ptr) ∧ (h.free ptr).Owns ptrs :=
  ⟨myfree_ok_iff.2 ⟨ho.header List.mem_cons_self, rfl⟩, ho.free⟩

theorem Owns.myrealloc {len : ℤ} {r : Ptr × Heap} (ho : h.Owns (ptr :: ptrs))
    (hr : myrealloc h ptr len = .ok r) : r.2.Owns (r.1 :: ptrs) :=
  ho.free.fresh (myrealloc_ok hr).2

/-- A copy of a string is the shared constant, or joins the blocks that are owned. -/
theorem Owns.strdup {str : Bytes} {r : Ptr × Heap}
    (ho : h.Owns (ptrs.filter (· ≠ .emptyString))) (hr : mystrdup h (some str) = .ok r) :
    (r.1 = .emptyString ↔ str = []) ∧ r.2.Owns ((r.1 :: ptrs).filter (· ≠ .emptyString)) := by
  rcases mystrdup_ok hr with ⟨hstr, rfl⟩ | ⟨hstr, hfresh⟩
  · exact ⟨by simp [hstr], by simpa using ho⟩
  · have ho' := ho.fresh hfresh
    have hne := ho'.ne_emptyString List.mem_cons_self
    rw [List.filter_cons_of_pos (by simpa using hne)]
    exact ⟨by simp [hne, hstr], ho'⟩

theorem Owns.alloc {r : Ptr × Heap} (ho : h.Owns (ptrs.filter (· ≠ .emptyString)))
    (hr : h.Fresh r) :
    r.1 ≠ .emptyString ∧ r.2.Owns ((r.1 :: ptrs).filter (· ≠ .emptyString)) := by
  have ho' := ho.fresh hr
  have hne := ho'.ne_emptyString List.mem_cons_self
  rw [List.filter_cons_of_pos (by simpa using hne)]
  exact ⟨hne, ho'⟩

/-- The shared empty string has no header. -/
theorem myfree_emptyString (h : Heap) :
    Nowra.myfree h .emptyString = .error (.panic (.corruptOrUnallocated "myfree")) := rfl

end Heap

/-! ## Programs -/

/-- How an address is obtained. -/
inductive Request
  | malloc (len : ℤ)
  | strdup (str : Bytes)
  | strndup (str : Bytes) (len : ℕ)
  | memdup (ptr : Bytes)
  deriving DecidableEq

/-- The call. -/
def Request.exec (h : Heap) : Request → Except Fault (Ptr × Heap)
  | .malloc len => mymalloc h len
  | .strdup str => mystrdup h (some str)
  | .strndup str len => mystrndup h (some str) len
  | .memdup ptr => mymemdup h (some ptr)

/-- A string function is given the empty string. -/
def Request.Empty : Request → Prop
  | .strdup str => str = []
  | .strndup str _ => str.head? = some 0
  | .malloc _ | .memdup _ => False

instance : DecidablePred Request.Empty := fun r => by
  cases r <;> unfold Request.Empty <;> infer_instance

/-- A program with the addresses it has not given back, and what each was obtained by. -/
structure AllocState where
  heap : Heap
  live : List (Ptr × Request)

/-- What a program does. -/
inductive AllocLabel
  | get (r : Request)
  | realloc (x : Ptr × Request) (len : ℤ)
  | free (x : Ptr × Request)

/-- A call that returns. -/
inductive AllocStep (s : AllocState) : AllocLabel → AllocState → Prop
  | get {r : Request} {x : Ptr × Heap} (h : r.exec s.heap = .ok x) :
      AllocStep s (.get r) ⟨x.2, (x.1, r) :: s.live⟩
  | realloc {x : Ptr × Request} {len : ℤ} {y : Ptr × Heap} (hx : x ∈ s.live)
      (h : myrealloc s.heap x.1 len = .ok y) :
      AllocStep s (.realloc x len) ⟨y.2, (y.1, x.2) :: s.live.erase x⟩
  | free {x : Ptr × Request} {h' : Heap} (hx : x ∈ s.live) (h : myfree s.heap x.1 = .ok h') :
      AllocStep s (.free x) ⟨h', s.live.erase x⟩

/-- Any program that gives each address back at most once. -/
def allocSystem : LTS AllocState AllocLabel where
  init s := s = ⟨heapInit, []⟩
  step := AllocStep

theorem Request.exec_ok {r : Request} {h : Heap} {x : Ptr × Heap} (hx : r.exec h = .ok x) :
    (r.Empty ∧ x = (.emptyString, h)) ∨ (¬r.Empty ∧ h.Fresh x) := by
  cases r with
  | malloc len => exact Or.inr ⟨id, mymalloc_ok hx⟩
  | strdup str => exact mystrdup_ok hx
  | strndup str len => exact mystrndup_ok hx
  | memdup ptr => exact Or.inr ⟨id, mallocStore_ok hx⟩

/-- The addresses that are no shared empty string are owned. -/
structure AllocState.Owned (s : AllocState) : Prop where
  shared : ∀ x ∈ s.live, x.2.Empty → x.1 = .emptyString
  owned : s.heap.Owns ((s.live.filter fun x => ¬x.2.Empty).map (·.1))

namespace AllocState

variable {s : AllocState} {x : Ptr × Request}

/-- An address that is owned, and the rest. -/
theorem Owned.owns_cons (h : s.Owned) (hx : x ∈ s.live) (hne : ¬x.2.Empty) :
    s.heap.Owns (x.1 :: ((s.live.erase x).filter fun x => ¬x.2.Empty).map (·.1)) := by
  refine h.owned.perm ?_
  have hperm := ((List.perm_cons_erase hx).filter fun x => ¬x.2.Empty).map (·.1)
  rw [List.filter_cons_of_pos (by simpa using hne), List.map_cons] at hperm
  exact hperm

/-- What passes the check was not made from an empty string. -/
theorem Owned.header_iff (h : s.Owned) (hx : x ∈ s.live) :
    (∃ b, s.heap.header x.1 = some b ∧ b.Valid) ↔ ¬x.2.Empty := by
  constructor
  · rintro ⟨b, hb, -⟩ hempty
    rw [h.shared x hx hempty] at hb
    cases hb
  · intro hne
    exact (h.owns_cons hx hne).header List.mem_cons_self

theorem Owned.step {t : AllocState} {a : AllocLabel} (h : s.Owned) (hst : allocSystem.step s a t) :
    t.Owned := by
  cases hst with
  | @get r y hy =>
    rcases Request.exec_ok hy with ⟨hempty, rfl⟩ | ⟨hne, hfresh⟩
    · refine ⟨fun z hz hze => ?_, ?_⟩
      · rcases List.mem_cons.1 hz with rfl | hz
        · rfl
        · exact h.shared z hz hze
      · rw [List.filter_cons_of_neg (by simpa using hempty)]
        exact h.owned
    · refine ⟨fun z hz hze => ?_, ?_⟩
      · rcases List.mem_cons.1 hz with rfl | hz
        · exact absurd hze hne
        · exact h.shared z hz hze
      · rw [List.filter_cons_of_pos (by simpa using hne)]
        exact h.owned.fresh hfresh
  | @realloc x len y hx hy =>
    have hne : ¬x.2.Empty := (h.header_iff hx).1 (myrealloc_ok hy).1
    refine ⟨fun z hz hze => ?_, ?_⟩
    · rcases List.mem_cons.1 hz with rfl | hz
      · exact absurd hze hne
      · exact h.shared z (List.mem_of_mem_erase hz) hze
    · rw [List.filter_cons_of_pos (by simpa using hne)]
      exact (h.owns_cons hx hne).myrealloc hy
  | @free x h' hx hy =>
    obtain ⟨hvalid, rfl⟩ := myfree_ok_iff.1 hy
    have hne : ¬x.2.Empty := (h.header_iff hx).1 hvalid
    exact ⟨fun z hz hze => h.shared z (List.mem_of_mem_erase hz) hze, (h.owns_cons hx hne).free⟩

theorem owned_of_reach (h : allocSystem.Reach s) : s.Owned := by
  refine h.invariant ?_ fun _ _ _ hs hst => hs.step hst
  rintro _ rfl
  exact ⟨by simp, Heap.owns_nil _⟩

end AllocState

/-- In every run an address can be given back, and can be reallocated, if and only if it was not
made from an empty string. -/
theorem live_released_iff {s : AllocState} (h : allocSystem.Reach s) {x : Ptr × Request}
    (hx : x ∈ s.live) : ((∃ h', myfree s.heap x.1 = .ok h') ↔ ¬x.2.Empty) ∧
      ∀ len, 1 ≤ len → ((∃ r, myrealloc s.heap x.1 len = .ok r) ↔ ¬x.2.Empty) := by
  have hiff := (AllocState.owned_of_reach h).header_iff hx
  refine ⟨?_, fun len hlen => (myrealloc_isOk hlen).trans hiff⟩
  rw [← hiff]
  constructor
  · rintro ⟨h', hfree⟩
    exact (myfree_ok_iff.1 hfree).1
  · intro hvalid
    exact ⟨_, myfree_ok_iff.2 ⟨hvalid, rfl⟩⟩

end Nowra
