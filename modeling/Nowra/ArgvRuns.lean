import Nowra.ArgvSlots

/-!
# Calls on a string array

Any sequence of calls on an array that `argv_alloc` made. `NeverOverruns` says that no call writes
to a slot that is not there, that after each argument the array holds what was added so far with
`argc < len` and a slot for the terminator, and that a terminated array is the arguments and a null
pointer.

This is so if and only if the size of the first block is an `int` (`neverOverruns_iff`). For larger
arguments of `argv_alloc` the size wraps around : the block is smaller than `len` says, and since no
check sees that, some sequence of arguments is written past its end.

`tokens_exact` is what the calls do with a string : the tokens are the runs of bytes that are no
delimiters, at the level of the bytes and in the array.
-/

namespace Nowra

/-! ## Calls -/

/-- A call on an array. A string has no null byte. -/
inductive ArgvOp
  | add (args : List Bytes)
  | splitAppend (string delim : Bytes) (h0 : 0 ∉ string)
  | terminate

namespace ArgvOp

/-- The code of the call. -/
def run (r : ArgvMem × Heap) : ArgvOp → Except ArgvFault (ArgvMem × Heap)
  | add args => argvMemAdd r args
  | splitAppend string delim _ => argvMemSplitAppend r string delim
  | terminate => do
    let argvp ← argvMemTerminate r.1
    pure (argvp, r.2)

/-- The call up to the moment when it has stored `k` arguments. -/
def upTo (k : ℕ) (r : ArgvMem × Heap) : ArgvOp → Except ArgvFault (ArgvMem × Heap)
  | add args => argvMemAdd r (args.take k)
  | splitAppend string delim _ => do
    let (savedString, h) ← heapCall (mystrdup r.2 (some string))
    let mem ← heapCall (h.bytesAt savedString)
    argvSplitLoop delim k mem 0 (r.1, h)
  | terminate => pure r

/-- The arguments that the call stores. -/
def args : ArgvOp → List Bytes
  | add args => args
  | splitAppend string delim _ => runs delim string
  | terminate => []

/-- The call terminates the array. -/
def Terminates : ArgvOp → Prop
  | add _ => False
  | splitAppend _ _ _ | terminate => True

/-- A call returns what it says, or the allocator does not return. -/
theorem run_built {m : ArgvMem} {h : Heap} {len : ℤ} {done : List Bytes} {rest : List Ptr}
    (hb : m.Built h len done rest) (op : ArgvOp) :
    (∃ r, op.run (m, h) = .ok r ∧ r.1.Built r.2 len (done ++ op.args) rest ∧
      (op.Terminates → r.1.slots[(done ++ op.args).length]? = some (some .null))) ∨
    ∃ f, op.run (m, h) = .error (.heap f) := by
  cases op with
  | add args =>
    rcases ArgvMem.Built.addAll args hb with ⟨-, r, hr, hb'⟩ | ⟨-, f, hf⟩
    · exact .inl ⟨r, hr, hb', False.elim⟩
    · exact .inr ⟨f, hf⟩
  | splitAppend string delim h0 =>
    rcases hb.splitAppend h0 delim with ⟨-, r, hr, hb', hnull⟩ | ⟨-, f, hf⟩
    · exact .inl ⟨r, hr, hb', fun _ => hnull⟩
    · exact .inr ⟨f, hf⟩
  | terminate =>
    obtain ⟨m', hm', hb', hnull⟩ := hb.terminate
    refine .inl ⟨(m', h), bindOk hm', ?_, fun _ => ?_⟩
    · simpa [args] using hb'
    · simpa [args] using hnull

/-- After some of its arguments the array holds them. -/
theorem upTo_built {m : ArgvMem} {h : Heap} {len : ℤ} {done : List Bytes} {rest : List Ptr}
    (hb : m.Built h len done rest) (op : ArgvOp) (k : ℕ) {r : ArgvMem × Heap}
    (hr : op.upTo k (m, h) = .ok r) :
    ∃ rest', r.1.Built r.2 len (done ++ op.args.take k) rest' := by
  have hadd {m : ArgvMem} {h : Heap} {rest : List Ptr} {args : List Bytes}
      (hb : m.Built h len done rest) (hr : argvMemAdd (m, h) args = .ok r) :
      r.1.Built r.2 len (done ++ args) rest := by
    rcases ArgvMem.Built.addAll args hb with ⟨-, r', hr', hb'⟩ | ⟨-, f, hf⟩
    · obtain rfl := Except.ok.inj (hr'.symm.trans hr)
      exact hb'
    · cases hf.symm.trans hr
  cases op with
  | add args => exact ⟨rest, hadd hb hr⟩
  | splitAppend string delim h0 =>
    obtain ⟨⟨p, h₁⟩, hdup, hr⟩ := bind_ok_iff.1 hr
    rw [heapCall_ok] at hdup
    simp only at hr
    rw [bindOk (heapCall_ok.2 (mystrdup_stores hdup).bytesAt)] at hr
    have hloop := argvSplitLoop_eq delim k [] (m, h₁) h0
    rw [strtokAll_eq_runs] at hloop
    have hr' := hloop.symm.trans hr
    rcases mystrdup_ok hdup with ⟨-, he⟩ | ⟨-, hfresh⟩
    · obtain ⟨-, rfl⟩ := Prod.mk.inj he
      exact ⟨rest, hadd hb hr'⟩
    · exact ⟨_, hadd (hb.fresh hfresh) hr'⟩
  | terminate =>
    obtain rfl := Except.ok.inj hr
    exact ⟨rest, by simpa [args] using hb⟩

end ArgvOp

/-! ## Sequences of calls -/

/-- Calls that return have stored their arguments. Calls that do not return end in the
allocator. -/
theorem foldlM_built (ops : List ArgvOp) : ∀ {m : ArgvMem} {h : Heap} {len : ℤ}
    {done : List Bytes} {rest : List Ptr}, m.Built h len done rest →
    (∃ r, ops.foldlM ArgvOp.run (m, h) = .ok r ∧
      r.1.Built r.2 len (done ++ ops.flatMap ArgvOp.args) rest) ∨
    ∃ f, ops.foldlM ArgvOp.run (m, h) = .error (.heap f) := by
  induction ops with
  | nil => exact fun {m h _ _ _} hb => .inl ⟨(m, h), rfl, by simpa using hb⟩
  | cons op ops ih =>
    intro m h len done rest hb
    rcases op.run_built hb with ⟨r, hr, hb', -⟩ | ⟨f, hf⟩
    · rw [List.foldlM_cons, bindOk hr, List.flatMap_cons, ← List.append_assoc]
      exact ih hb'
    · exact .inr ⟨f, bind_error_iff.2 (.inl hf)⟩

/-- Whatever is called, no slot is written that is not there. Each argument that was stored is in
its slot, with `argc < len`, and a terminated array ends in a null pointer. -/
def NeverOverruns (r : ArgvMem × Heap) : Prop :=
  ∀ (ops : List ArgvOp) (op : ArgvOp),
    (ops ++ [op]).foldlM ArgvOp.run r ≠ .error .slot ∧
    (∀ k r', ops.foldlM ArgvOp.run r >>= op.upTo k = .ok r' →
      r'.1.Holds r'.2 (ops.flatMap ArgvOp.args ++ op.args.take k)) ∧
    ∀ r', (ops ++ [op]).foldlM ArgvOp.run r = .ok r' → op.Terminates →
      r'.1.IsVector r'.2 ((ops ++ [op]).flatMap ArgvOp.args)

theorem neverOverruns_of_built {m : ArgvMem} {h : Heap} {len : ℤ} {rest : List Ptr}
    (hb : m.Built h len [] rest) : NeverOverruns (m, h) := by
  intro ops op
  have hops := foldlM_built ops hb
  rw [List.nil_append] at hops
  rw [List.foldlM_append, List.flatMap_append, List.flatMap_singleton]
  have hone (r : ArgvMem × Heap) : [op].foldlM ArgvOp.run r = op.run r := by
    simp
  rcases hops with ⟨r, hr, hb'⟩ | ⟨f, hf⟩
  · rw [bindOk hr, hone]
    refine ⟨?_, fun k r' hr' => ?_, fun r' hr' hterm => ?_⟩
    · rcases op.run_built hb' with ⟨r', hr', -⟩ | ⟨f, hf⟩
      · exact fun he => by cases hr'.symm.trans he
      · exact fun he => by cases hf.symm.trans he
    · rw [bindOk hr] at hr'
      obtain ⟨rest', hb''⟩ := op.upTo_built hb' k hr'
      exact hb''.holds
    · rcases op.run_built hb' with ⟨r'', hr'', hb'', hnull⟩ | ⟨f, hf⟩
      · obtain rfl := Except.ok.inj (hr''.symm.trans hr')
        exact ⟨hb''.holds, hnull hterm⟩
      · cases hf.symm.trans hr'
  · have herr {β : Type} (g : ArgvMem × Heap → Except ArgvFault β) :
        ops.foldlM ArgvOp.run (m, h) >>= g = .error (.heap f) := bind_error_iff.2 (.inl hf)
    rw [herr]
    refine ⟨by simp, fun k r' hr' => ?_, fun r' hr' => ?_⟩
    · cases (herr _).symm.trans hr'
    · cases hr'

/-! ## The first size -/

/-- Empty arguments are stored until there is no slot left. -/
theorem argvMemAdd_slot {h : Heap} : ∀ {d : ℕ} {m : ArgvMem} {n : ℕ}, m.argc = n →
    n + d = m.slots.length → (m.slots.length : ℤ) + 1 < m.len →
    argvMemAdd (m, h) (List.replicate (d + 1) []) = .error .slot := by
  intro d
  induction d with
  | zero =>
    intro m n hargc hn hlen
    have hgrow : argvMemGrow h m = .ok (m, h) := if_neg (by omega)
    have hdup : heapCall (mystrdup h (some [])) = .ok (.emptyString, h) := rfl
    have hset : m.setSlot m.argc .emptyString = .error .slot := if_neg (by omega)
    refine bind_error_iff.2 (.inl ?_)
    unfold argvMemAddArg
    rw [bindOk hgrow]
    simp only
    rw [bindOk hdup]
    exact bind_error_iff.2 (.inl hset)
  | succ d ih =>
    intro m n hargc hn hlen
    have hgrow : argvMemGrow h m = .ok (m, h) := if_neg (by omega)
    have hdup : heapCall (mystrdup h (some [])) = .ok (.emptyString, h) := rfl
    have hset := setSlot_eq (show n < m.slots.length by omega) .emptyString
    rw [← hargc] at hset
    have hadd : argvMemAddArg (m, h) [] = .ok
        ({ m with slots := m.slots.set n (some .emptyString), argc := m.argc + 1 }, h) := by
      unfold argvMemAddArg
      rw [bindOk hgrow]
      simp only
      rw [bindOk hdup]
      simp only
      rw [bindOk hset]
      rfl
    rw [List.replicate_succ]
    refine (bindOk hadd).trans (ih (n := n + 1) ?_ ?_ ?_)
    · simp [hargc]
    · simp
      omega
    · simpa using hlen

/-- A size that is no `int` wraps around to less than a quarter of what it should be. -/
theorem slots_of_not_arrayFits {n : ℤ} (hn : n < 2 ^ 31) (hfits : ¬ArrayFits (argvLen n 0))
    {h : Heap} {r : ArgvMem × Heap} (hr : argvMemAlloc h n = .ok r) :
    r.1.argc = 0 ∧ r.1.len = n ∧ (r.1.slots.length : ℤ) + 1 < n := by
  have hge : ¬n < 2 := by
    intro hlt
    unfold ArrayFits argvLen sizeofPtr at hfits
    rw [if_pos hlt] at hfits
    exact hfits (by decide)
  rw [argvLen, if_neg hge] at hfits
  obtain ⟨⟨self, h₁⟩, -, hr⟩ := bind_ok_iff.1 hr
  obtain ⟨⟨argv, h₂⟩, hargv, hr⟩ := bind_ok_iff.1 hr
  obtain ⟨m, hset, hr⟩ := bind_ok_iff.1 hr
  obtain rfl := Except.ok.inj hr
  simp only [if_neg hge, heapCall_ok] at hargv hset
  have hpos : 1 ≤ intOf ((n + 1) * sizeofPtr) := by
    rcases mymalloc_spec h₁ (intOf ((n + 1) * sizeofPtr)) with ⟨-, herr⟩ | ⟨hpos, -⟩
    · cases herr.symm.trans hargv
    · exact hpos
  unfold ArgvMem.setSlot at hset
  split at hset
  · obtain rfl := Except.ok.inj hset
    have hslots : (slotsIn (intOf ((n + 1) * sizeofPtr)) : ℤ) + 1 < n := by
      unfold slotsIn intOf ArrayFits sizeofPtr at *
      omega
    exact ⟨rfl, rfl, by simpa using hslots⟩
  · cases hset

/-- The array never overruns if and only if the size of its first block is an `int`, and
otherwise some arguments are written past its end. -/
theorem neverOverruns_iff {n : ℤ} (hn : n < 2 ^ 31) {h : Heap} {r : ArgvMem × Heap}
    (hr : argvMemAlloc h n = .ok r) :
    (NeverOverruns r ↔ n + 1 < 2 ^ 28) ∧
      (¬n + 1 < 2 ^ 28 → ∃ args, argvMemAdd r args = .error .slot) := by
  have hiff : ArrayFits (argvLen n 0) ↔ n + 1 < 2 ^ 28 := by
    unfold ArrayFits argvLen sizeofPtr
    split <;> omega
  have hover : ¬n + 1 < 2 ^ 28 → ∃ args, argvMemAdd r args = .error .slot := by
    intro hno
    obtain ⟨hargc, hlen, hslots⟩ := slots_of_not_arrayFits hn (hiff.not.2 hno) hr
    exact ⟨_, argvMemAdd_slot (n := 0) hargc (Nat.zero_add _) (by rw [hlen]; exact hslots)⟩
  refine ⟨⟨fun hnever => ?_, fun hfits => ?_⟩, hover⟩
  · by_contra hno
    obtain ⟨args, hargs⟩ := hover hno
    refine (hnever [] (.add args)).1 ?_
    rw [List.nil_append, List.foldlM_cons]
    exact bind_error_iff.2 (.inl hargs)
  · obtain ⟨r', hr', hb⟩ := argvMemAlloc_built h.owns_nil (hiff.2 hfits)
    obtain rfl := Except.ok.inj (hr'.symm.trans hr)
    exact neverOverruns_of_built hb

/-- An array for five strings. -/
theorem neverOverruns_five : ∃ r, argvMemAlloc heapInit 5 = .ok r ∧ NeverOverruns r :=
  ⟨_, rfl, ((neverOverruns_iff (n := 5) (by decide) rfl).1).2 (by decide)⟩

/-- The block for `2 ^ 29` strings has eight bytes, which is one slot. The second string is
written behind it. -/
theorem overruns_two_pow_twentyNine : ∃ r, argvMemAlloc heapInit (2 ^ 29) = .ok r ∧
    r.1.len = 2 ^ 29 ∧ r.1.slots.length = 1 ∧ argvMemAdd r [[], []] = .error .slot ∧
    ¬NeverOverruns r :=
  ⟨_, rfl, rfl, rfl, rfl, fun h => (h [] (.add [[], []])).1 rfl⟩

/-! ## Tokens -/

/-- A string can be split if and only if it is not empty and the sizes are each an `int`. The
array is then its runs. -/
theorem argvMemSplit_isOk (h : Heap) {string : Bytes} (h0 : 0 ∉ string) (delim : Bytes) :
    ((∃ r, argvMemSplit h string delim = .ok r) ↔ string ≠ [] ∧ StrFits string ∧
      ArrayFits (argvLen 1 (runs delim string).length)) ∧
    ∀ r, argvMemSplit h string delim = .ok r → r.1.IsVector r.2 (runs delim string) := by
  obtain ⟨r₀, hr₀, hb⟩ := argvMemAlloc_built h.owns_nil (argvLen_fits 1 (by decide))
  have hsplit := hb.splitAppend h0 delim
  simp only [List.length_nil, Nat.zero_add, List.nil_append] at hsplit
  have hcode : argvMemSplit h string delim = argvMemSplitAppend r₀ string delim := bindOk hr₀
  rw [hcode]
  rcases hsplit with ⟨hfits, r, hr, hb', hnull⟩ | ⟨hno, f, hf⟩
  · refine ⟨iff_of_true ⟨r, hr⟩ hfits, fun r' hr' => ?_⟩
    obtain rfl := Except.ok.inj (hr.symm.trans hr')
    exact ⟨hb'.holds, hnull⟩
  · refine ⟨iff_of_false ?_ hno, fun r' hr' => by cases hf.symm.trans hr'⟩
    rintro ⟨r, hr⟩
    cases hf.symm.trans hr

/-- Calls of `mystrtok` return the runs, and then null pointers. An array that is split from the
string is the runs, and one to which the string is appended has them behind what was added to
it. -/
theorem tokens_exact (sep : Bytes) {s : Bytes} (h0 : 0 ∉ s) :
    (∀ n, ∃ args mem src, ∀ junk, strtokCalls sep n (s ++ 0 :: junk) 0 =
        .ok (args, src, mem ++ 0 :: junk) ∧
      args.map (Option.map (strAt (mem ++ 0 :: junk))) = callResults (runs sep s) n) ∧
    (∀ h, ((∃ r, argvMemSplit h s sep = .ok r) ↔ s ≠ [] ∧ StrFits s ∧
        ArrayFits (argvLen 1 (runs sep s).length)) ∧
      ∀ r, argvMemSplit h s sep = .ok r → r.1.IsVector r.2 (runs sep s)) ∧
    ∀ n h r₀ r₁, n + 1 < 2 ^ 28 → argvMemAlloc h n = .ok r₀ → ∀ ops : List ArgvOp,
      ops.foldlM ArgvOp.run r₀ = .ok r₁ →
      ((∃ r, argvMemSplitAppend r₁ s sep = .ok r) ↔ s ≠ [] ∧ StrFits s ∧
        ArrayFits (argvLen n ((ops.flatMap ArgvOp.args).length + (runs sep s).length))) ∧
      ∀ r, argvMemSplitAppend r₁ s sep = .ok r →
        r.1.IsVector r.2 (ops.flatMap ArgvOp.args ++ runs sep s) := by
  refine ⟨strtokCalls_eq sep h0, fun h => argvMemSplit_isOk h h0 sep, ?_⟩
  intro n h r₀ r₁ hn hr₀ ops hr₁
  obtain ⟨r', hr', hb⟩ := argvMemAlloc_built h.owns_nil (argvLen_fits n (by omega))
  obtain rfl := Except.ok.inj (hr'.symm.trans hr₀)
  rcases foldlM_built ops hb with ⟨r'', hr'', hb₁⟩ | ⟨f, hf⟩
  · obtain rfl := Except.ok.inj (hr''.symm.trans hr₁)
    rw [List.nil_append] at hb₁
    rcases hb₁.splitAppend h0 sep with ⟨hfits, r, hr, hb', hnull⟩ | ⟨hno, f, hf⟩
    · refine ⟨iff_of_true ⟨r, hr⟩ hfits, fun r₂ hr₂ => ?_⟩
      obtain rfl := Except.ok.inj (hr.symm.trans hr₂)
      exact ⟨hb'.holds, hnull⟩
    · refine ⟨iff_of_false ?_ hno, fun r₂ hr₂ => by cases hf.symm.trans hr₂⟩
      rintro ⟨r, hr⟩
      cases hf.symm.trans hr
  · cases hf.symm.trans hr₁

/-- The tokens of `,a,,b`. -/
theorem tokens_exact_commas : ∃ r, argvMemSplit heapInit (cstr ",a,,b") (cstr ",") = .ok r ∧
    r.1.IsVector r.2 [cstr "a", cstr "b"] := by
  have h := ((tokens_exact (cstr ",") (s := cstr ",a,,b") (by decide)).2.1 heapInit)
  have hruns : runs (cstr ",") (cstr ",a,,b") = [cstr "a", cstr "b"] := by decide
  have hfits : ArrayFits (argvLen 1 (runs (cstr ",") (cstr ",a,,b")).length) := by
    rw [hruns]
    exact show (_ : ℤ) < _ by decide
  have hstr : StrFits (cstr ",a,,b") := show _ < _ by decide
  obtain ⟨r, hr⟩ := h.1.2 ⟨by decide, hstr, hfits⟩
  rw [← hruns]
  exact ⟨r, hr, h.2 r hr⟩

/-- A string of `2 ^ 31 - 1` bytes is not split. The copy would have one byte more. -/
theorem argvMemSplit_too_long : ∃ s : Bytes, 0 ∉ s ∧ s ≠ [] ∧
    ∀ h delim, ¬∃ r, argvMemSplit h s delim = .ok r := by
  refine ⟨List.replicate (2 ^ 31 - 1) 97#8, ?_, ?_, fun h delim hr => ?_⟩
  · exact fun hmem => absurd (List.eq_of_mem_replicate hmem) (by decide)
  · exact fun hnil => absurd (congrArg List.length hnil) (by rw [List.length_replicate]; decide)
  · have h0 : 0 ∉ List.replicate (2 ^ 31 - 1) 97#8 :=
      fun hmem => absurd (List.eq_of_mem_replicate hmem) (by decide)
    have hfits := (((argvMemSplit_isOk h h0 delim).1).1 hr).2.1
    rw [StrFits, List.length_replicate] at hfits
    omega

end Nowra
