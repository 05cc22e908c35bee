import Mathlib.Data.List.TakeWhile
import Nowra.Mymalloc

/-!
# Strings

`stringop.c` : the tokenizer `mystrtok`, `split_at_right` with `host_port`, `concatenate` and
`basename`, on strings of bytes without a null byte. The functions that cut a string in place are
functions of its bytes here.

A token is not empty and holds no delimiter (`mystrtok_spec`), and `strtokAll` is the list of the
tokens that a loop over `mystrtok` finds.
-/

namespace Nowra

/-- The bytes of a string literal. -/
def cstr (s : String) : Bytes := s.toList.map fun c => BitVec.ofNat 8 c.toNat

/-- `:` -/
def colon : BitVec 8 := BitVec.ofNat 8 ':'.toNat

/-- Separate off one token. Returns it, nothing at the end, and where to go on. -/
def mystrtok (src sep : Bytes) : Option Bytes × Bytes :=
  -- skip over leading delimiters
  let start := src.dropWhile (· ∈ sep)
  if start = [] then (none, start)
  else (some (start.takeWhile (· ∉ sep)), (start.dropWhile (· ∉ sep)).tail)

/-- What follows the last `delimiter`, the whole string if there is none. -/
def afterLast (string : Bytes) (delimiter : BitVec 8) : Bytes :=
  (string.reverse.takeWhile (· ≠ delimiter)).reverse

/-- Break a string at its last delimiter. Returns the remainder, if there is one. -/
def splitAtRight (string : Bytes) (delimiter : BitVec 8) : Bytes × Option Bytes :=
  if delimiter ∈ string then
    (string.take (string.length - (afterLast string delimiter).length - 1),
      some (afterLast string delimiter))
  else (string, none)

/-- The host and the port of an address. -/
def hostPort (addr : Bytes) : Bytes × Bytes :=
  match splitAtRight addr (BitVec.ofNat 8 ':'.toNat) with
  | (buf, some portp) => (buf, portp)
  | (buf, none) => ([], buf)

/-- Concatenate strings. -/
def concatenate (args : List Bytes) : Bytes := args.flatten

/-- Skip the directory prefix. -/
def basename (path : Bytes) : Bytes := afterLast path (BitVec.ofNat 8 '/'.toNat)

/-! ## Tokens -/

/-- A token is not empty, holds no delimiter, and is taken off the string. -/
theorem mystrtok_spec {src sep tok rest : Bytes} (h : mystrtok src sep = (some tok, rest)) :
    tok ≠ [] ∧ (∀ c ∈ tok, c ∉ sep) ∧ tok.length + rest.length ≤ src.length := by
  unfold mystrtok at h
  by_cases hstart : src.dropWhile (· ∈ sep) = []
  · simp [hstart] at h
  · simp only [hstart, if_false, Prod.mk.injEq, Option.some.injEq] at h
    obtain ⟨rfl, rfl⟩ := h
    refine ⟨fun hnil => ?_, fun c hc => by simpa using List.mem_takeWhile_imp hc, ?_⟩
    · obtain ⟨c, l, hl⟩ := List.exists_cons_of_ne_nil hstart
      have hc := List.head_dropWhile_not (· ∈ sep) hstart
      simp only [hl, List.head_cons, decide_eq_false_iff_not] at hc
      simp [hl, hc] at hnil
    · have htake : ((src.dropWhile (· ∈ sep)).takeWhile (· ∉ sep)).length +
          ((src.dropWhile (· ∈ sep)).dropWhile (· ∉ sep)).length =
          (src.dropWhile (· ∈ sep)).length := by
        rw [← List.length_append, List.takeWhile_append_dropWhile]
      have hdrop := List.length_dropWhile_le (· ∈ sep) src
      rw [List.length_tail]
      omega

/-- The tokens that `n` calls of `mystrtok` find. -/
def strtokLoop (sep : Bytes) : ℕ → Bytes → List Bytes
  | 0, _ => []
  | n + 1, bp =>
    match mystrtok bp sep with
    | (none, _) => []
    | (some arg, bp) => arg :: strtokLoop sep n bp

/-- All tokens of a string. -/
def strtokAll (sep string : Bytes) : List Bytes := strtokLoop sep string.length string

/-- A loop with more turns than the string has bytes finds the same tokens. -/
theorem strtokLoop_eq {sep : Bytes} {n : ℕ} {bp : Bytes} (h : bp.length ≤ n) :
    strtokLoop sep n bp = strtokAll sep bp := by
  induction n using Nat.strong_induction_on generalizing bp with
  | _ n ih =>
    cases n with
    | zero =>
      obtain rfl := List.eq_nil_of_length_eq_zero (Nat.le_zero.1 h)
      rfl
    | succ n =>
      cases bp with
      | nil => simp [strtokLoop, strtokAll, mystrtok]
      | cons c bp =>
        rw [List.length_cons] at h
        unfold strtokAll
        rw [List.length_cons, strtokLoop, strtokLoop]
        cases hm : mystrtok (c :: bp) sep with
        | mk tok rest =>
          cases tok with
          | none => rfl
          | some arg =>
            obtain ⟨hne, -, hlen⟩ := mystrtok_spec hm
            have hpos : 0 < arg.length := List.length_pos_iff.2 hne
            rw [List.length_cons] at hlen
            have hrest : rest.length ≤ bp.length := by omega
            simp only
            rw [ih n (by omega) (by omega), ih bp.length (by omega) hrest]

/-- The loop finds the first token, and goes on behind it. -/
theorem strtokAll_eq (sep bp : Bytes) : strtokAll sep bp =
    match mystrtok bp sep with
    | (none, _) => []
    | (some arg, bp) => arg :: strtokAll sep bp := by
  rw [← strtokLoop_eq (Nat.le_succ bp.length), strtokLoop]
  cases hm : mystrtok bp sep with
  | mk tok rest =>
    cases tok with
    | none => rfl
    | some arg =>
      obtain ⟨-, -, hlen⟩ := mystrtok_spec hm
      simp only
      rw [strtokLoop_eq (by omega)]

theorem strtokAll_ne_nil {sep string : Bytes} : ∀ arg ∈ strtokAll sep string, arg ≠ [] := by
  unfold strtokAll
  induction string.length generalizing string with
  | zero => simp [strtokLoop]
  | succ n ih =>
    intro arg harg
    rw [strtokLoop] at harg
    cases hm : mystrtok string sep with
    | mk tok rest =>
      rw [hm] at harg
      cases tok with
      | none => simp at harg
      | some tok =>
        rcases List.mem_cons.1 harg with rfl | harg
        · exact (mystrtok_spec hm).1
        · exact ih arg harg

theorem length_le_of_mem_strtokAll {sep string : Bytes} :
    ∀ arg ∈ strtokAll sep string, arg.length ≤ string.length := by
  have hloop : ∀ (n : ℕ) (bp : Bytes), ∀ arg ∈ strtokLoop sep n bp, arg.length ≤ bp.length := by
    intro n
    induction n with
    | zero => simp [strtokLoop]
    | succ n ih =>
      intro bp arg harg
      rw [strtokLoop] at harg
      cases hm : mystrtok bp sep with
      | mk tok rest =>
        rw [hm] at harg
        cases tok with
        | none => simp at harg
        | some tok =>
          have hlen := (mystrtok_spec hm).2.2
          rcases List.mem_cons.1 harg with rfl | harg
          · omega
          · have hle := ih rest arg harg
            omega
  exact hloop string.length string

end Nowra
