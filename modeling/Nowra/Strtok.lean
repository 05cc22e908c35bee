import Nowra.String2ll
import Nowra.Tokens

/-!
# The tokenizer in memory

`mystrtok` works in the string itself : it writes a null byte over the delimiter behind a token
and moves the cursor past it, except at the end of the string. Here it reads and writes the
bytes at its cursor, and a read behind the last byte of the memory is an access outside.

The memory is what the calls went through, then the rest of the string, its null byte and
anything behind that. A call changes the rest only, so the tokens returned before stay where
they are. Any number of calls return the runs of bytes that are no delimiters, in order, and
null pointers from then on (`strtokCalls_eq`), whatever is behind the null byte.

The runs are the pieces between delimiters that are not empty (`runs`), and the loop over
`mystrtok` that other modules use has them for its tokens (`strtokAll_eq_runs`).
-/

namespace Nowra

/-! ## The code -/

/-- `strspn` on the bytes at `s`. -/
def strspn (sep : Bytes) : Bytes → Except Fault ℕ
  | [] => throw .outside
  | c :: s => if c ≠ 0 ∧ c ∈ sep then (· + 1) <$> strspn sep s else pure 0

/-- `strcspn` on the bytes at `s`. -/
def strcspn (sep : Bytes) : Bytes → Except Fault ℕ
  | [] => throw .outside
  | c :: s => if c = 0 ∨ c ∈ sep then pure 0 else (· + 1) <$> strcspn sep s

/-- `mystrtok` with the cursor at the offset `src`. Returns the offset of the token, the cursor
and the memory. -/
def mystrtokAt (mem : Bytes) (src : ℕ) (sep : Bytes) : Except Fault (Option ℕ × ℕ × Bytes) := do
  -- skip over leading delimiters
  let start := src + (← strspn sep (mem.drop src))
  if (← byteOf mem start) = 0 then pure (none, start, mem)
  else
    -- separate off one token
    let stop := start + (← strcspn sep (mem.drop start))
    if (← byteOf mem stop) ≠ 0 then pure (some start, stop + 1, mem.set stop 0)
    else pure (some start, stop, mem)

/-- `n` calls, one after the other. Returns what they return, the cursor and the memory. -/
def strtokCalls (sep : Bytes) : ℕ → Bytes → ℕ → Except Fault (List (Option ℕ) × ℕ × Bytes)
  | 0, mem, src => pure ([], src, mem)
  | n + 1, mem, src => do
    let (arg, src, mem) ← mystrtokAt mem src sep
    let (args, src, mem) ← strtokCalls sep n mem src
    pure (arg :: args, src, mem)

/-- The string at an offset. -/
def strAt (mem : Bytes) (start : ℕ) : Bytes := (mem.drop start).takeWhile (· ≠ 0)

/-! ## Runs -/

/-- The runs of bytes that are no delimiters, each as long as can be. -/
def runs (sep s : Bytes) : List Bytes := (s.splitOnP (· ∈ sep)).filter (· ≠ [])

theorem runs_cons_sep {sep : Bytes} {c : BitVec 8} (hc : c ∈ sep) (s : Bytes) :
    runs sep (c :: s) = runs sep s := by
  rw [runs, List.splitOnP_cons_eq_if_modifyHead, if_pos (by simpa using hc),
    List.filter_cons_of_neg (by simp)]
  rfl

/-- A run goes up to the next delimiter. -/
theorem runs_cons {sep : Bytes} {c : BitVec 8} (hc : c ∉ sep) (s : Bytes) : runs sep (c :: s) =
    (c :: s.takeWhile (· ∉ sep)) :: runs sep (s.dropWhile (· ∉ sep)) := by
  have hrun : ∀ d ∈ c :: s.takeWhile (· ∉ sep), decide (d ∈ sep) = false := by
    intro d hd
    rcases List.mem_cons.1 hd with rfl | hd
    · simpa using hc
    · simpa using List.mem_takeWhile_imp hd
  have hsplit : c :: s = (c :: s.takeWhile (· ∉ sep)) ++ s.dropWhile (· ∉ sep) := by
    rw [List.cons_append, List.takeWhile_append_dropWhile]
  cases hrest : s.dropWhile (· ∉ sep) with
  | nil =>
    rw [hrest, List.append_nil] at hsplit
    rw [runs, hsplit, List.splitOnP_eq_singleton hrun, List.filter_cons_of_pos (by simp)]
    rfl
  | cons d t =>
    have hd : d ∈ sep := by
      have hne : s.dropWhile (· ∉ sep) ≠ [] := hrest ▸ List.cons_ne_nil d t
      have hhead := List.head_dropWhile_not (· ∉ sep) hne
      simp only [hrest, List.head_cons] at hhead
      simpa using hhead
    rw [hrest] at hsplit
    rw [runs_cons_sep hd, runs, hsplit,
      List.splitOnP_append_cons_of_forall_mem hrun d (by simpa using hd),
      List.filter_cons_of_pos (by simp)]
    rfl

/-- The tokens are the runs. -/
theorem strtokAll_eq_runs (sep s : Bytes) : strtokAll sep s = runs sep s := by
  induction s using @strtok_induction sep with
  | nil => rfl
  | blank c s hc ih => rw [strtokAll_cons_sep hc, runs_cons_sep hc, ih]
  | token c s hc ih => rw [strtokAll_cons hc, runs_cons hc, ih]

/-! ## One call -/

theorem strspn_eq {sep : Bytes} {c : BitVec 8} (hc : c ∉ sep ∨ c = 0) (s : Bytes) :
    ∀ {skip : Bytes}, (∀ d ∈ skip, d ≠ 0 ∧ d ∈ sep) →
      strspn sep (skip ++ c :: s) = .ok skip.length
  | [], _ => by
    have hstop : ¬(c ≠ 0 ∧ c ∈ sep) := by tauto
    rw [List.nil_append, strspn, if_neg hstop]
    rfl
  | d :: skip, h => by
    rw [List.cons_append, strspn, if_pos (h d (by simp)),
      strspn_eq hc s fun e he => h e (by simp [he])]
    rfl

theorem strcspn_eq {sep : Bytes} {c : BitVec 8} (hc : c = 0 ∨ c ∈ sep) (s : Bytes) :
    ∀ {tok : Bytes}, (∀ d ∈ tok, d ≠ 0 ∧ d ∉ sep) →
      strcspn sep (tok ++ c :: s) = .ok tok.length
  | [], _ => by
    rw [List.nil_append, strcspn, if_pos hc]
    rfl
  | d :: tok, h => by
    have hd := h d (by simp)
    have hgo : ¬(d = 0 ∨ d ∈ sep) := by tauto
    rw [List.cons_append, strcspn, if_neg hgo, strcspn_eq hc s fun e he => h e (by simp [he])]
    rfl

/-- The next token, if there is one, with the delimiters before it and what is behind it. -/
theorem mystrtok_cases (sep rest : Bytes) :
    ((mystrtok rest sep).1 = none ∧ ∀ d ∈ rest, d ∈ sep) ∨
    ∃ skip tok after, rest = skip ++ (tok ++ after) ∧ (∀ d ∈ skip, d ∈ sep) ∧ tok ≠ [] ∧
      (∀ d ∈ tok, d ∉ sep) ∧ (∀ d ∈ after.head?, d ∈ sep) ∧
      mystrtok rest sep = (some tok, after.tail) := by
  cases hstart : rest.dropWhile (· ∈ sep) with
  | nil =>
    refine .inl ⟨?_, by simpa using hstart⟩
    rw [mystrtok, hstart, if_pos rfl]
  | cons c s =>
    have hne : rest.dropWhile (· ∈ sep) ≠ [] := hstart ▸ List.cons_ne_nil c s
    have hm : mystrtok rest sep =
        (some ((c :: s).takeWhile (· ∉ sep)), ((c :: s).dropWhile (· ∉ sep)).tail) := by
      rw [mystrtok, hstart, if_neg (by simp)]
    have htok := mystrtok_spec hm
    refine .inr ⟨rest.takeWhile (· ∈ sep), (c :: s).takeWhile (· ∉ sep),
      (c :: s).dropWhile (· ∉ sep), ?_, ?_, htok.1, htok.2.1, ?_, hm⟩
    · rw [List.takeWhile_append_dropWhile, ← hstart, List.takeWhile_append_dropWhile]
    · exact fun d hd => by simpa using List.mem_takeWhile_imp hd
    · intro d hd
      obtain ⟨s', hs'⟩ := List.head?_eq_some_iff.1 hd
      have hne' : (c :: s).dropWhile (· ∉ sep) ≠ [] := hs' ▸ List.cons_ne_nil d s'
      have hhead := List.head_dropWhile_not (· ∉ sep) hne'
      simp only [hs', List.head_cons] at hhead
      simpa using hhead

section

variable {sep skip tok : Bytes}

theorem byteOf_append' (pre mid rest : Bytes) (c : BitVec 8) :
    byteOf (pre ++ (mid ++ c :: rest)) (pre.length + mid.length) = .ok c := by
  rw [← List.append_assoc, ← List.length_append, byteOf_append]

/-- There is no token, and the cursor stops at the null byte. -/
theorem mystrtokAt_none (done : Bytes) (hskip : ∀ d ∈ skip, d ≠ 0 ∧ d ∈ sep) (junk : Bytes) :
    mystrtokAt (done ++ (skip ++ 0 :: junk)) done.length sep =
      .ok (none, done.length + skip.length, done ++ (skip ++ 0 :: junk)) := by
  unfold mystrtokAt
  rw [List.drop_left, strspn_eq (.inr rfl) junk hskip]
  simp only [bind, Except.bind, byteOf_append']
  rfl

/-- A token is cut off behind its last byte `d`, which is a delimiter or the null byte. -/
theorem mystrtokAt_some (done : Bytes) (hskip : ∀ d ∈ skip, d ≠ 0 ∧ d ∈ sep) (hne : tok ≠ [])
    (htok : ∀ d ∈ tok, d ≠ 0 ∧ d ∉ sep) {d : BitVec 8} (hd : d = 0 ∨ d ∈ sep) (s : Bytes) :
    mystrtokAt (done ++ (skip ++ (tok ++ d :: s))) done.length sep =
      .ok (some (done.length + skip.length),
        done.length + skip.length + tok.length + (if d = 0 then 0 else 1),
        done ++ (skip ++ (tok ++ 0 :: s))) := by
  obtain ⟨c, tok', rfl⟩ := List.exists_cons_of_ne_nil hne
  have hc := htok c (by simp)
  have hstart : (done ++ (skip ++ (c :: tok' ++ d :: s))).drop (done.length + skip.length) =
      c :: tok' ++ d :: s := by
    rw [← List.append_assoc, ← List.length_append, List.drop_left]
  have hstop : byteOf (done ++ (skip ++ (c :: tok' ++ d :: s)))
      (done.length + skip.length + (c :: tok').length) = .ok d := by
    rw [← List.append_assoc, ← List.length_append, byteOf_append']
  have hset : (done ++ (skip ++ (c :: tok' ++ d :: s))).set
      (done.length + skip.length + (c :: tok').length) 0 =
      done ++ (skip ++ (c :: tok' ++ 0 :: s)) := by
    rw [← List.append_assoc, ← List.append_assoc, ← List.length_append, ← List.length_append,
      List.set_append_right _ _ le_rfl, Nat.sub_self, List.set_cons_zero]
    simp
  unfold mystrtokAt
  rw [List.drop_left, List.cons_append, strspn_eq (.inl hc.2) _ hskip]
  rw [List.cons_append] at hstart hstop hset
  simp only [bind, Except.bind, byteOf_append', if_neg hc.1, hstart]
  rw [← List.cons_append, strcspn_eq hd s htok]
  simp only
  rw [List.cons_append, hstop]
  by_cases hd0 : d = 0
  · subst hd0
    rfl
  · simp only [ne_eq, hd0, not_false_eq_true, if_true, if_false, hset]
    rfl

end

theorem strAt_append (pre mid tok rest : Bytes) (htok : 0 ∉ tok) :
    strAt (pre ++ (mid ++ (tok ++ 0 :: rest))) (pre.length + mid.length) = tok := by
  rw [strAt, ← List.append_assoc, ← List.length_append, List.drop_left, takeWhile_null_append,
    takeWhile_null_of_notMem htok]

/-- A call with the cursor at `rest`. The bytes `gone` that it moves the cursor over hold the
token for good, whatever is written behind them. -/
theorem mystrtokAt_step (sep done : Bytes) {rest : Bytes} (h0 : 0 ∉ rest) :
    ((mystrtok rest sep).1 = none ∧ ∀ junk,
      mystrtokAt (done ++ (rest ++ 0 :: junk)) done.length sep =
        .ok (none, (done ++ rest).length, done ++ rest ++ 0 :: junk)) ∨
    ∃ tok rest' gone start, mystrtok rest sep = (some tok, rest') ∧ 0 ∉ rest' ∧
      0 < gone.length ∧ gone.length + rest'.length = rest.length ∧
      (∀ junk, mystrtokAt (done ++ (rest ++ 0 :: junk)) done.length sep =
        .ok (some start, (done ++ gone).length, done ++ gone ++ (rest' ++ 0 :: junk))) ∧
      ∀ tail junk, tail.length = rest'.length →
        strAt (done ++ gone ++ (tail ++ 0 :: junk)) start = tok := by
  rcases mystrtok_cases sep rest with ⟨hnone, hall⟩ |
    ⟨skip, tok, after, rfl, hskip, hne, htok, hafter, hm⟩
  · refine .inl ⟨hnone, fun junk => ?_⟩
    rw [mystrtokAt_none done fun d hd => ⟨fun h => h0 (h ▸ hd), hall d hd⟩, List.length_append,
      List.append_assoc]
  · rw [List.mem_append, List.mem_append, not_or, not_or] at h0
    have hskip : ∀ d ∈ skip, d ≠ 0 ∧ d ∈ sep := fun d hd => ⟨fun h => h0.1 (h ▸ hd), hskip d hd⟩
    have htok : ∀ d ∈ tok, d ≠ 0 ∧ d ∉ sep := fun d hd => ⟨fun h => h0.2.1 (h ▸ hd), htok d hd⟩
    have hpos : 0 < tok.length := List.length_pos_iff.2 hne
    refine .inr ⟨tok, after.tail, ?_⟩
    cases after with
    | nil =>
      -- the token ends at the null byte, and the cursor stays on it
      refine ⟨skip ++ tok, done.length + skip.length, hm, by simp, by simp; omega, by simp,
        fun junk => ?_, fun tail junk hlen => ?_⟩
      · have hcall := mystrtokAt_some done hskip hne htok (.inl rfl) junk
        rw [if_pos rfl, Nat.add_zero] at hcall
        simpa only [List.append_nil, List.append_assoc, List.length_append, List.tail_nil,
          List.nil_append, Nat.add_assoc] using hcall
      · obtain rfl := List.length_eq_zero_iff.1 hlen
        simpa only [List.append_assoc, List.nil_append] using
          strAt_append done skip tok junk h0.2.1
    | cons d rest =>
      have hd0 : d ≠ 0 := fun h => h0.2.2 (by simp [h])
      refine ⟨skip ++ (tok ++ [0]), done.length + skip.length, hm,
        fun h => h0.2.2 (List.mem_cons_of_mem _ h),
        by simp only [List.length_append, List.length_singleton]; omega, by simp; omega,
        fun junk => ?_, fun tail junk _ => ?_⟩
      · have hcall := mystrtokAt_some done hskip hne htok (.inr (hafter d rfl))
          (rest ++ 0 :: junk)
        rw [if_neg hd0] at hcall
        simpa only [List.append_assoc, List.length_append, List.length_singleton, List.tail_cons,
          List.cons_append, List.nil_append, Nat.add_assoc] using hcall
      · simpa only [List.append_assoc, List.cons_append, List.nil_append] using
          strAt_append done skip tok (tail ++ 0 :: junk) h0.2.1

/-! ## All calls -/

/-- What `n` calls return for the strings that a loop would find. -/
def callResults {α : Type} (toks : List α) (n : ℕ) : List (Option α) :=
  (toks.take n).map some ++ List.replicate (n - toks.length) none

theorem callResults_nil {α : Type} (n : ℕ) :
    callResults ([] : List α) (n + 1) = none :: callResults [] n := by
  simp [callResults, List.replicate_succ]

theorem callResults_cons {α : Type} (tok : α) (toks : List α) (n : ℕ) :
    callResults (tok :: toks) (n + 1) = some tok :: callResults toks n := by
  simp [callResults]

/-- Calls with the cursor at the rest of the string return its tokens, and write nowhere else. -/
theorem strtokCalls_loop (sep : Bytes) : ∀ (n : ℕ) (done : Bytes) {rest : Bytes}, 0 ∉ rest →
    ∃ args tail src, tail.length = rest.length ∧ ∀ junk,
      strtokCalls sep n (done ++ (rest ++ 0 :: junk)) done.length =
        .ok (args, src, done ++ (tail ++ 0 :: junk)) ∧
      args.map (Option.map (strAt (done ++ (tail ++ 0 :: junk)))) =
        callResults (strtokAll sep rest) n
  | 0, done, rest, _ => ⟨[], rest, done.length, rfl, fun junk => ⟨rfl, by simp [callResults]⟩⟩
  | n + 1, done, rest, h0 => by
    rw [strtokAll_eq]
    rcases mystrtokAt_step sep done h0 with ⟨hnone, hcall⟩ |
      ⟨tok, rest', gone, start, hm, h0', -, hgone, hcall, hstr⟩
    · have hm : mystrtok rest sep = (none, (mystrtok rest sep).2) := by rw [← hnone]
      -- the cursor is at the null byte from now on
      have hnil : (0 : BitVec 8) ∉ ([] : Bytes) := by simp
      obtain ⟨args, tail, src, hlen, hrun⟩ := strtokCalls_loop sep n (done ++ rest) hnil
      obtain rfl := List.length_eq_zero_iff.1 hlen
      refine ⟨none :: args, rest, src, rfl, fun junk => ?_⟩
      obtain ⟨hcalls, hargs⟩ := hrun junk
      rw [List.nil_append] at hcalls hargs
      constructor
      · rw [strtokCalls, hcall]
        simp only [bind, Except.bind, hcalls]
        rw [List.append_assoc]
        rfl
      · rw [hm, List.map_cons, Option.map_none, ← List.append_assoc, hargs, callResults_nil]
        rfl
    · obtain ⟨args, tail, src, hlen, hrun⟩ := strtokCalls_loop sep n (done ++ gone) h0'
      refine ⟨some start :: args, gone ++ tail, src, by simp; omega, fun junk => ?_⟩
      obtain ⟨hcalls, hargs⟩ := hrun junk
      constructor
      · rw [strtokCalls, hcall]
        simp only [bind, Except.bind, hcalls]
        rw [List.append_assoc gone, ← List.append_assoc done]
        rfl
      · rw [hm, List.append_assoc, ← List.append_assoc done, List.map_cons, Option.map_some,
          hstr tail junk hlen, hargs, callResults_cons]

/-- Any number of calls return the runs of the string one after the other, and null pointers
from then on. Nothing behind the null byte is read or written. -/
theorem strtokCalls_eq (sep : Bytes) {s : Bytes} (h0 : 0 ∉ s) (n : ℕ) :
    ∃ args mem src, ∀ junk, strtokCalls sep n (s ++ 0 :: junk) 0 =
        .ok (args, src, mem ++ 0 :: junk) ∧
      args.map (Option.map (strAt (mem ++ 0 :: junk))) = callResults (runs sep s) n := by
  obtain ⟨args, mem, src, -, hrun⟩ := strtokCalls_loop sep n [] h0
  rw [strtokAll_eq_runs] at hrun
  exact ⟨args, mem, src, hrun⟩

end Nowra
