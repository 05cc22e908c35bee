import Mathlib.Data.List.Forall2
import Mathlib.Order.Monotone.Basic
import Nowra.Stringop

/-!
# String arrays

`argv.c` : arrays that double when they are full, whose elements are copies made by `mystrdup`.

What `argv_add` did to an array is `Argv.Built`. The elements that are copies of an empty string
point to the shared constant, so `argv_free` returns if and only if there is none
(`argvFree_isOk`). `argv_split` copies its string, and frees the copy : it returns if and only if
the string is not empty, up to sizes that are no `int` (`argvSplit_isOk`).
-/

namespace Nowra

/-- `sizeof(ARGV)` -/
def sizeofArgv : ℤ := 16

/-- `sizeof(char *)` -/
def sizeofPtr : ℤ := 8

/-- A string array, with the pointers that are stored in it. -/
structure Argv where
  /-- The address of the `ARGV`. -/
  self : Ptr
  /-- The number of array elements. -/
  len : ℤ
  /-- The array elements in use. -/
  argc : ℤ
  argv : Ptr
  elems : List Ptr

/-- Initialize a string array. -/
def argvAlloc (h : Heap) (len : ℤ) : Except Fault (Argv × Heap) := do
  let (self, h) ← mymalloc h sizeofArgv
  let len := if len < 2 then 2 else len
  let (argv, h) ← mymalloc h (intOf ((len + 1) * sizeofPtr))
  pure (⟨self, len, 0, argv, []⟩, h)

/-- Destroy a string array. -/
def argvFree (h : Heap) (argvp : Argv) : Except Fault Heap := do
  let h ← argvp.elems.foldlM myfree h
  let h ← myfree h argvp.argv
  myfree h argvp.self

/-- Make room for one more element. -/
def argvGrow (h : Heap) (argvp : Argv) : Except Fault (Argv × Heap) :=
  if argvp.argc + 1 ≥ argvp.len then do
    let len := argvp.len * 2
    let (argv, h) ← myrealloc h argvp.argv (intOf ((len + 1) * sizeofPtr))
    pure ({ argvp with len := len, argv := argv }, h)
  else pure (argvp, h)

/-- One turn of the loop of `argv_add`. -/
def argvAddArg (r : Argv × Heap) (arg : Bytes) : Except Fault (Argv × Heap) := do
  let (argvp, h) ← argvGrow r.2 r.1
  let (p, h) ← mystrdup h (some arg)
  pure ({ argvp with argc := argvp.argc + 1, elems := argvp.elems ++ [p] }, h)

/-- Add strings to the array. -/
def argvAdd (h : Heap) (argvp : Argv) (args : List Bytes) : Except Fault (Argv × Heap) :=
  args.foldlM argvAddArg (argvp, h)

/-- Terminate the array. There is one element more than `len`. -/
def argvTerminate (argvp : Argv) : Except Fault Unit :=
  if argvp.argc > argvp.len then throw .outside else pure ()

/-- Split a string into tokens and append them to an array. -/
def argvSplitAppend (h : Heap) (argvp : Argv) (string delim : Bytes) :
    Except Fault (Argv × Heap) := do
  let (savedString, h) ← mystrdup h (some string)
  let (argvp, h) ← argvAdd h argvp (strtokAll delim string)
  argvTerminate argvp
  let h ← myfree h savedString
  pure (argvp, h)

/-- Split a string into an array of tokens. -/
def argvSplit (h : Heap) (string delim : Bytes) : Except Fault (Argv × Heap) := do
  let (argvp, h) ← argvAlloc h 1
  argvSplitAppend h argvp string delim

/-- An array of copies. -/
def argvOf (h : Heap) (len : ℤ) (args : List Bytes) : Except Fault (Argv × Heap) := do
  let (argvp, h) ← argvAlloc h len
  argvAdd h argvp args

/-! ## What was added -/

/-- The number of elements that an array has room for, from `len` and after `n` additions. -/
def argvLen (len : ℤ) : ℕ → ℤ
  | 0 => if len < 2 then 2 else len
  | n + 1 => if (n : ℤ) + 1 ≥ argvLen len n then argvLen len n * 2 else argvLen len n

theorem lt_argvLen (len : ℤ) : ∀ n : ℕ, (n : ℤ) + 1 ≤ argvLen len n ∧ 2 ≤ argvLen len n
  | 0 => by
    unfold argvLen
    split <;> omega
  | n + 1 => by
    have ih := lt_argvLen len n
    unfold argvLen
    split <;> omega

theorem argvLen_le_succ (len : ℤ) (n : ℕ) : argvLen len n ≤ argvLen len (n + 1) := by
  have hpos := (lt_argvLen len n).2
  rw [argvLen]
  split <;> omega

theorem argvLen_mono (len : ℤ) {m n : ℕ} (h : m ≤ n) : argvLen len m ≤ argvLen len n :=
  monotone_nat_of_le_succ (argvLen_le_succ len) h

/-- The array has a size that is an `int`. -/
def ArrayFits (len : ℤ) : Prop := (len + 1) * sizeofPtr < 2 ^ 31

/-- A string has a size that is an `int`. -/
def StrFits (str : Bytes) : Prop := str.length + 1 < 2 ^ 31

/-- The array holds copies of `args`, added from a first size `len`. Its blocks are owned, together
with `rest`. -/
structure Argv.Built (argvp : Argv) (h : Heap) (len : ℤ) (args : List Bytes) (rest : List Ptr) :
    Prop where
  argc : argvp.argc = args.length
  len : argvp.len = argvLen len args.length
  fits : ArrayFits argvp.len
  copies : List.Forall₂ (fun p arg => p = Ptr.emptyString ↔ arg = []) argvp.elems args
  owned : h.Owns (argvp.argv :: argvp.self ::
    (argvp.elems.filter (· ≠ .emptyString) ++ rest))

theorem intOf_arrayFits {len : ℤ} (hpos : 2 ≤ len) (hfits : ArrayFits len) :
    intOf ((len + 1) * sizeofPtr) = (len + 1) * sizeofPtr := by
  unfold ArrayFits sizeofPtr at *
  exact intOf_eq (by omega) (by omega)

/-- Twice a size that fits is negative as an `int` if it does not fit. -/
theorem intOf_not_arrayFits {len : ℤ} (hfits : ArrayFits len) (hno : ¬ArrayFits (len * 2)) :
    intOf ((len * 2 + 1) * sizeofPtr) < 1 := by
  unfold ArrayFits intOf sizeofPtr at *
  omega

theorem arrayFits_of_le {len len' : ℤ} (h : ArrayFits len') (hle : len ≤ len') : ArrayFits len := by
  unfold ArrayFits sizeofPtr at *
  omega

theorem argvLen_fits (len : ℤ) (h : len < 2 ^ 28 - 1) : ArrayFits (argvLen len 0) := by
  unfold ArrayFits argvLen sizeofPtr
  split <;> omega

/-- A new array is empty. -/
theorem argvAlloc_built {h : Heap} {len : ℤ} {rest : List Ptr} (ho : h.Owns rest)
    (hfits : ArrayFits (argvLen len 0)) :
    ∃ r, argvAlloc h len = .ok r ∧ r.1.Built r.2 len [] rest := by
  have hpos := (lt_argvLen len 0).2
  rcases mymalloc_spec h sizeofArgv with ⟨hlt, -⟩ | ⟨-, r₁, hok₁, hfresh₁⟩
  · exact absurd hlt (by decide)
  have hlen : 1 ≤ intOf ((argvLen len 0 + 1) * sizeofPtr) := by
    rw [intOf_arrayFits hpos hfits]
    unfold sizeofPtr
    omega
  rcases mymalloc_spec r₁.2 (intOf ((argvLen len 0 + 1) * sizeofPtr)) with
    ⟨hlt, -⟩ | ⟨-, r₂, hok₂, hfresh₂⟩
  · omega
  refine ⟨_, bind_ok_iff.2 ⟨r₁, hok₁, bind_ok_iff.2 ⟨r₂, hok₂, rfl⟩⟩, rfl, rfl, hfits, .nil, ?_⟩
  exact (ho.fresh hfresh₁).fresh hfresh₂

namespace Argv.Built

variable {argvp : Argv} {h : Heap} {len : ℤ} {args : List Bytes} {rest : List Ptr}

/-- An array grows as far as its size is an `int`. -/
theorem grow (hb : argvp.Built h len args rest) :
    (ArrayFits (argvLen len (args.length + 1)) ∧ ∃ r, argvGrow h argvp = .ok r ∧
      r.1 = { argvp with len := argvLen len (args.length + 1), argv := r.1.argv } ∧
      r.2.Owns (r.1.argv :: argvp.self :: (argvp.elems.filter (· ≠ .emptyString) ++ rest))) ∨
    (¬ArrayFits (argvLen len (args.length + 1)) ∧ ∃ e, argvGrow h argvp = .error e) := by
  have hpos := (lt_argvLen len args.length).2
  rw [← hb.len] at hpos
  have hnext : argvLen len (args.length + 1) =
      if argvp.argc + 1 ≥ argvp.len then argvp.len * 2 else argvp.len := by
    rw [argvLen, ← hb.len, ← hb.argc]
  unfold argvGrow
  by_cases hfull : argvp.argc + 1 ≥ argvp.len
  · rw [if_pos hfull] at hnext ⊢
    rw [hnext]
    by_cases hfits : ArrayFits (argvp.len * 2)
    · left
      have hone : 1 ≤ intOf ((argvp.len * 2 + 1) * sizeofPtr) := by
        rw [intOf_arrayFits (by omega) hfits]
        unfold sizeofPtr
        omega
      obtain ⟨r, hr⟩ := (myrealloc_isOk hone).2 (hb.owned.header List.mem_cons_self)
      exact ⟨hfits, _, bind_ok_iff.2 ⟨r, hr, rfl⟩, rfl, hb.owned.myrealloc hr⟩
    · right
      have hneg := intOf_not_arrayFits hb.fits hfits
      refine ⟨hfits, .panic (.requestedLength "myrealloc"
        (intOf ((argvp.len * 2 + 1) * sizeofPtr))), ?_⟩
      simp only [myrealloc, if_pos hneg]
      rfl
  · rw [if_neg hfull] at hnext ⊢
    rw [hnext]
    exact Or.inl ⟨hb.fits, _, rfl, rfl, hb.owned⟩

theorem add (hb : argvp.Built h len args rest) {arg : Bytes} {r : Argv × Heap}
    (hr : argvAddArg (argvp, h) arg = .ok r) : r.1.Built r.2 len (args ++ [arg]) rest := by
  obtain ⟨⟨argvp', h'⟩, hgrow, hr⟩ := bind_ok_iff.1 hr
  obtain ⟨⟨p, h''⟩, hdup, hr⟩ := bind_ok_iff.1 hr
  obtain rfl := Except.ok.inj hr
  rcases hb.grow with ⟨hfits, r', hok, heq, ho⟩ | ⟨-, e, herr⟩
  · obtain rfl := Except.ok.inj (hok.symm.trans hgrow)
    simp only at heq ho hdup ⊢
    have hargc := congrArg Argv.argc heq
    have hlen := congrArg Argv.len heq
    have hself := congrArg Argv.self heq
    have helems := congrArg Argv.elems heq
    simp only at hargc hlen hself helems
    -- the copy is the shared string, or one block more
    have hcopy : (p = .emptyString ↔ arg = []) ∧ h''.Owns (argvp'.argv :: argvp.self ::
        ((argvp.elems ++ [p]).filter (· ≠ .emptyString) ++ rest)) := by
      rcases mystrdup_ok hdup with ⟨harg, he⟩ | ⟨harg, hfresh⟩
      · obtain ⟨rfl, rfl⟩ := Prod.mk.inj he
        exact ⟨by simp [harg], by simpa using ho⟩
      · have ho' := ho.fresh hfresh
        have hne : p ≠ .emptyString := ho'.ne_emptyString List.mem_cons_self
        refine ⟨by simp [hne, harg], ho'.perm ?_⟩
        rw [List.filter_append, List.filter_cons_of_pos (by simpa using hne), List.filter_nil,
          List.append_assoc, List.singleton_append]
        refine (List.Perm.swap _ _ _).trans (List.Perm.cons _ ?_)
        refine (List.Perm.swap _ _ _).trans (List.Perm.cons _ ?_)
        exact List.perm_middle.symm
    refine ⟨?_, ?_, ?_, ?_, ?_⟩
    · simp [hargc, hb.argc]
    · simp [hlen]
    · simpa [hlen] using hfits
    · rw [helems]
      exact List.rel_append hb.copies (.cons hcopy.1 .nil)
    · rw [helems, hself]
      exact hcopy.2
  · cases herr.symm.trans hgrow

theorem add_isOk (hb : argvp.Built h len args rest) (arg : Bytes) :
    (∃ r, argvAddArg (argvp, h) arg = .ok r) ↔
      StrFits arg ∧ ArrayFits (argvLen len (args.length + 1)) := by
  rcases hb.grow with ⟨hfits, r, hok, -⟩ | ⟨hno, e, herr⟩
  · rw [StrFits, ← mystrdup_isOk r.2 arg]
    constructor
    · rintro ⟨r', hr'⟩
      obtain ⟨r₁, hr₁, hr'⟩ := bind_ok_iff.1 hr'
      obtain rfl := Except.ok.inj (hok.symm.trans hr₁)
      obtain ⟨r₂, hr₂, -⟩ := bind_ok_iff.1 hr'
      exact ⟨⟨r₂, hr₂⟩, hfits⟩
    · rintro ⟨⟨r₂, hr₂⟩, -⟩
      exact ⟨_, bind_ok_iff.2 ⟨r, hok, bind_ok_iff.2 ⟨r₂, hr₂, rfl⟩⟩⟩
  · refine iff_of_false ?_ fun h => hno h.2
    rintro ⟨r', hr'⟩
    obtain ⟨r₁, hr₁, -⟩ := bind_ok_iff.1 hr'
    cases herr.symm.trans hr₁

/-- Strings can be added if and only if their sizes, and the size of the array, are each an
`int`. -/
theorem argvAdd_isOk {args' : List Bytes} : ∀ {argvp : Argv} {h : Heap} {args : List Bytes},
    argvp.Built h len args rest → ((∃ r, argvAdd h argvp args' = .ok r) ↔
      (∀ arg ∈ args', StrFits arg) ∧ ArrayFits (argvLen len (args.length + args'.length))) := by
  induction args' with
  | nil =>
    intro argvp h args hb
    refine iff_of_true ⟨_, rfl⟩ ⟨by simp, ?_⟩
    simpa [← hb.len] using hb.fits
  | cons arg args' ih =>
    intro argvp h args hb
    have hstep := hb.add_isOk arg
    have hlen : args.length + (arg :: args').length = (args ++ [arg]).length + args'.length := by
      simp only [List.length_cons, List.length_append, List.length_nil]
      omega
    rw [hlen]
    constructor
    · rintro ⟨r, hr⟩
      obtain ⟨r₁, hr₁, hr⟩ := bind_ok_iff.1 hr
      obtain ⟨hall, hfits⟩ := (ih (hb.add hr₁)).1 ⟨r, hr⟩
      exact ⟨List.forall_mem_cons.2 ⟨(hstep.1 ⟨r₁, hr₁⟩).1, hall⟩, hfits⟩
    · rintro ⟨hall, hfits⟩
      obtain ⟨harg, hall⟩ := List.forall_mem_cons.1 hall
      have hle : argvLen len (args.length + 1) ≤
          argvLen len ((args ++ [arg]).length + args'.length) := argvLen_mono len (by simp)
      obtain ⟨r₁, hr₁⟩ := hstep.2 ⟨harg, arrayFits_of_le hfits hle⟩
      obtain ⟨r, hr⟩ := (ih (hb.add hr₁)).2 ⟨hall, hfits⟩
      exact ⟨r, bind_ok_iff.2 ⟨r₁, hr₁, hr⟩⟩

theorem argvAdd {args' : List Bytes} : ∀ {argvp : Argv} {h : Heap} {args : List Bytes}
    {r : Argv × Heap}, argvp.Built h len args rest → Nowra.argvAdd h argvp args' = .ok r →
      r.1.Built r.2 len (args ++ args') rest := by
  induction args' with
  | nil =>
    intro argvp h args r hb hr
    obtain rfl := Except.ok.inj hr
    simpa using hb
  | cons arg args' ih =>
    intro argvp h args r hb hr
    obtain ⟨r₁, hr₁, hr⟩ := bind_ok_iff.1 hr
    simpa using ih (hb.add hr₁) hr

/-- A new block joins the rest. -/
theorem fresh (hb : argvp.Built h len args rest) {r : Ptr × Heap} (hr : h.Fresh r) :
    argvp.Built r.2 len args (r.1 :: rest) := by
  refine ⟨hb.argc, hb.len, hb.fits, hb.copies, (hb.owned.fresh hr).perm ?_⟩
  refine (List.Perm.swap _ _ _).trans (List.Perm.cons _ ?_)
  refine (List.Perm.swap _ _ _).trans (List.Perm.cons _ ?_)
  exact List.perm_middle.symm

/-- A block of the rest can be freed. -/
theorem release {p : Ptr} (hb : argvp.Built h len args (p :: rest)) :
    myfree h p = .ok (h.free p) ∧ argvp.Built (h.free p) len args rest := by
  have hperm : (argvp.argv :: argvp.self ::
      (argvp.elems.filter (· ≠ .emptyString) ++ p :: rest)).Perm
      (p :: argvp.argv :: argvp.self :: (argvp.elems.filter (· ≠ .emptyString) ++ rest)) :=
    (List.Perm.cons _ (List.Perm.cons _ List.perm_middle)).trans
      ((List.Perm.cons _ (List.Perm.swap _ _ _)).trans (List.Perm.swap _ _ _))
  obtain ⟨hfree, ho⟩ := (hb.owned.perm hperm).myfree
  exact ⟨hfree, hb.argc, hb.len, hb.fits, hb.copies, ho⟩

theorem terminate (hb : argvp.Built h len args rest) : argvTerminate argvp = .ok () := by
  have hlt := (lt_argvLen len args.length).1
  have hle : ¬argvp.argc > argvp.len := by
    rw [hb.argc, hb.len]
    omega
  rw [argvTerminate, if_neg hle]
  rfl

theorem emptyString_mem_iff (hb : argvp.Built h len args rest) :
    Ptr.emptyString ∈ argvp.elems ↔ [] ∈ args := by
  have hcopies := hb.copies
  clear hb
  generalize argvp.elems = elems at hcopies ⊢
  induction hcopies with
  | nil => simp
  | cons hp _ ih =>
    rw [List.mem_cons, List.mem_cons]
    exact or_congr (eq_comm.trans (hp.trans eq_comm)) ih

end Argv.Built

/-- Blocks can be freed one after the other if and only if none is the shared empty string. -/
theorem foldlM_myfree {ps rest : List Ptr} : ∀ {h : Heap},
    h.Owns (ps.filter (· ≠ .emptyString) ++ rest) →
    (.emptyString ∉ ps ∧ ∃ h', ps.foldlM myfree h = .ok h' ∧ h'.Owns rest) ∨
    (.emptyString ∈ ps ∧ ∃ e, ps.foldlM myfree h = .error e) := by
  induction ps with
  | nil => exact fun ho => Or.inl ⟨by simp, _, rfl, ho⟩
  | cons p ps ih =>
    intro h ho
    by_cases hp : p = .emptyString
    · exact Or.inr ⟨by simp [hp], _, by rw [List.foldlM_cons, hp]; rfl⟩
    · rw [List.filter_cons_of_pos (by simpa using hp)] at ho
      obtain ⟨hfree, ho'⟩ := Heap.Owns.myfree ho
      have hrun : (p :: ps).foldlM myfree h = ps.foldlM myfree (h.free p) := by
        rw [List.foldlM_cons, hfree]
        rfl
      rw [hrun]
      refine (ih ho').imp (fun hno => ⟨?_, hno.2⟩) fun hyes =>
        ⟨List.mem_cons_of_mem _ hyes.1, hyes.2⟩
      simpa [Ne.symm hp] using hno.1

/-- An array can be destroyed if and only if it holds no copy of an empty string. -/
theorem argvFree_isOk {argvp : Argv} {h : Heap} {len : ℤ} {args : List Bytes} {rest : List Ptr}
    (hb : argvp.Built h len args rest) :
    ([] ∉ args ∧ ∃ h', argvFree h argvp = .ok h' ∧ h'.Owns rest) ∨
    ([] ∈ args ∧ ∃ e, argvFree h argvp = .error e) := by
  have hperm : (argvp.argv :: argvp.self :: (argvp.elems.filter (· ≠ .emptyString) ++ rest)).Perm
      (argvp.elems.filter (· ≠ .emptyString) ++ argvp.argv :: argvp.self :: rest) :=
    ((List.perm_middle).trans (List.Perm.cons _ List.perm_middle)).symm
  rw [← hb.emptyString_mem_iff]
  rcases foldlM_myfree (hb.owned.perm hperm) with ⟨hno, h₁, hrun, ho⟩ | ⟨hyes, e, herr⟩
  · obtain ⟨hfree₁, ho₁⟩ := ho.myfree
    obtain ⟨hfree₂, ho₂⟩ := ho₁.myfree
    exact Or.inl ⟨hno, _, bind_ok_iff.2 ⟨h₁, hrun, bind_ok_iff.2 ⟨_, hfree₁, hfree₂⟩⟩, ho₂⟩
  · exact Or.inr ⟨hyes, e, bind_error_iff.2 (Or.inl herr)⟩

/-- A string can be split into an array if and only if it is not empty and the sizes are each an
`int`. -/
theorem argvSplitAppend_isOk {argvp : Argv} {h : Heap} {len : ℤ} {args : List Bytes}
    {rest : List Ptr} (hb : argvp.Built h len args rest) (string delim : Bytes) :
    ((∃ r, argvSplitAppend h argvp string delim = .ok r) ↔ string ≠ [] ∧ StrFits string ∧
      ArrayFits (argvLen len (args.length + (strtokAll delim string).length))) ∧
    ∀ r, argvSplitAppend h argvp string delim = .ok r →
      r.1.Built r.2 len (args ++ strtokAll delim string) rest := by
  have hok : ∀ r, argvSplitAppend h argvp string delim = .ok r → string ≠ [] ∧ StrFits string ∧
      ArrayFits (argvLen len (args.length + (strtokAll delim string).length)) ∧
      r.1.Built r.2 len (args ++ strtokAll delim string) rest := by
    intro r hr
    obtain ⟨⟨saved, h₁⟩, hdup, hr⟩ := bind_ok_iff.1 hr
    obtain ⟨⟨argvp₂, h₂⟩, hadd, hr⟩ := bind_ok_iff.1 hr
    obtain ⟨-, -, hr⟩ := bind_ok_iff.1 hr
    obtain ⟨h₃, hfree, hr⟩ := bind_ok_iff.1 hr
    obtain rfl := Except.ok.inj hr
    rcases mystrdup_ok hdup with ⟨-, he⟩ | ⟨hne, hfresh⟩
    · obtain ⟨rfl, rfl⟩ := Prod.mk.inj he
      cases hfree
    · have hb₁ := hb.fresh hfresh
      obtain ⟨hfree', hb₃⟩ := (hb₁.argvAdd hadd).release
      obtain rfl := Except.ok.inj (hfree'.symm.trans hfree)
      exact ⟨hne, (mystrdup_isOk h string).1 ⟨_, hdup⟩, (hb₁.argvAdd_isOk.1 ⟨_, hadd⟩).2, hb₃⟩
  refine ⟨⟨?_, ?_⟩, fun r hr => (hok r hr).2.2.2⟩
  · rintro ⟨r, hr⟩
    exact ⟨(hok r hr).1, (hok r hr).2.1, (hok r hr).2.2.1⟩
  · rintro ⟨hne, hstr, harray⟩
    obtain ⟨⟨saved, h₁⟩, hdup⟩ := (mystrdup_isOk h string).2 hstr
    rcases mystrdup_ok hdup with ⟨hnil, -⟩ | ⟨-, hfresh⟩
    · exact absurd hnil hne
    · have hb₁ := hb.fresh hfresh
      have htok : ∀ arg ∈ strtokAll delim string, StrFits arg := by
        intro arg harg
        have hle := length_le_of_mem_strtokAll arg harg
        unfold StrFits at *
        omega
      obtain ⟨⟨argvp₂, h₂⟩, hadd⟩ := hb₁.argvAdd_isOk.2 ⟨htok, harray⟩
      have hb₂ := hb₁.argvAdd hadd
      exact ⟨_, bind_ok_iff.2 ⟨_, hdup, bind_ok_iff.2 ⟨_, hadd, bind_ok_iff.2 ⟨_, hb₂.terminate,
        bind_ok_iff.2 ⟨_, hb₂.release.1, rfl⟩⟩⟩⟩⟩

theorem argvSplit_isOk (h : Heap) (string delim : Bytes) :
    ((∃ r, argvSplit h string delim = .ok r) ↔ string ≠ [] ∧ StrFits string ∧
      ArrayFits (argvLen 1 (strtokAll delim string).length)) ∧
    ∀ r, argvSplit h string delim = .ok r → r.1.Built r.2 1 (strtokAll delim string) [] := by
  obtain ⟨r, hr, hb⟩ := argvAlloc_built (h.owns_nil) (argvLen_fits 1 (by decide))
  have heq : argvSplit h string delim = argvSplitAppend r.2 r.1 string delim := by
    unfold argvSplit
    rw [hr]
    rfl
  rw [heq]
  simpa using argvSplitAppend_isOk hb string delim

theorem argvOf_isOk {h : Heap} {len : ℤ} {args : List Bytes} {rest : List Ptr}
    (hlen : ArrayFits (argvLen len 0)) (ho : h.Owns rest) :
    ((∃ r, argvOf h len args = .ok r) ↔
      (∀ arg ∈ args, StrFits arg) ∧ ArrayFits (argvLen len args.length)) ∧
    ∀ r, argvOf h len args = .ok r → r.1.Built r.2 len args rest := by
  obtain ⟨r, hr, hb⟩ := argvAlloc_built ho hlen
  have heq : argvOf h len args = argvAdd r.2 r.1 args := by
    unfold argvOf
    rw [hr]
    rfl
  rw [heq]
  exact ⟨by simpa using hb.argvAdd_isOk, fun r hr => by simpa using hb.argvAdd hr⟩

end Nowra
