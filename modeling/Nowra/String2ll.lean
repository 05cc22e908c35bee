import Mathlib.Data.List.Induction
import Nowra.Format

/-!
# Strings to `long long`

`string2ll` reads a decimal number out of `slen` bytes, with two checks for an overflow of the
unsigned accumulator and a limit for each sign. `IsDecimal` says which strings are decimal
numbers : no plus sign, no leading zero, no minus sign in front of zero. These are the strings
that `%d` prints (`isDecimal_iff`).

`string2ll_exact` is the result for every string. It returns 1 exactly for the decimal numbers
that a `long long` holds, and stores the number, and otherwise it returns 0 and stores
nothing. The bytes behind the first `slen` do not matter, and may be missing.
-/

namespace Nowra

/-! ## The code -/

/-- `p[0]`, with `p` at the offset `i`. -/
def byteOf (s : Bytes) (i : ℕ) : Except Fault (BitVec 8) :=
  match s[i]? with
  | none => throw .outside
  | some c => pure c

/-- `p[0]-'0'` -/
def digitOf (c : BitVec 8) : BitVec 64 := (c - 48#8).setWidth 64

/-- `ULLONG_MAX` -/
def ullongMax : BitVec 64 := 0xffffffffffffffff#64

/-- `LLONG_MAX` -/
def llongMax : BitVec 64 := 0x7fffffffffffffff#64

/-- The loop over the digits, while `slen` is `plen + left`. The result is how many bytes are
left and the accumulator, or nothing where the accumulator would overflow. -/
def string2llLoop (s : Bytes) (plen : ℕ) (v : BitVec 64) :
    (left : ℕ) → Except Fault (Option (ℕ × BitVec 64))
  | 0 => pure (some (0, v))
  | left + 1 => do
    let c ← byteOf s plen
    if isDigit c then
      if v > ullongMax / 10#64 then pure none
      else
        let v := v * 10#64
        if v > ullongMax - digitOf c then pure none
        else string2llLoop s (plen + 1) (v + digitOf c) left
    else pure (some (left + 1, v))

/-- What follows the loop. No byte may be left, and the number has to fit its sign. -/
def string2llEnd (left : ℕ) (v : BitVec 64) (negative : Bool) (value : Option (BitVec 64)) :
    ℤ × Option (BitVec 64) :=
  if 0 < left then (0, value)
  else if negative then
    if v > llongMax + 1#64 then (0, value) else (1, value.map fun _ => -v)
  else if v > llongMax then (0, value)
  else (1, value.map fun _ => v)

/-- What comes after the sign, at the offset `plen`. -/
def string2llDigits (s : Bytes) (slen plen : ℕ) (negative : Bool) (value : Option (BitVec 64)) :
    Except Fault (ℤ × Option (BitVec 64)) := do
  let c ← byteOf s plen
  if 49#8 ≤ c ∧ c ≤ 57#8 then
    match ← string2llLoop s (plen + 1) (digitOf c) (slen - (plen + 1)) with
    | none => pure (0, value)
    | some (left, v) => pure (string2llEnd left v negative value)
  else if c = 48#8 ∧ slen = 1 then
    match value with
    | none => throw .outside
    | some _ => pure (1, some 0#64)
  else pure (0, value)

/-- Convert a string into a `long long`. `value` is the variable to store it in, `none` for a
null pointer. Returns the result and the variable afterwards. -/
def string2ll (s : Bytes) (slen : ℕ) (value : Option (BitVec 64)) :
    Except Fault (ℤ × Option (BitVec 64)) := do
  if slen = 0 then pure (0, value)
  else
    let c ← byteOf s 0
    if slen = 1 ∧ c = 48#8 then pure (1, value.map fun _ => 0#64)
    else if c = 45#8 then
      if slen = 1 then pure (0, value) else string2llDigits s slen 1 true value
    else string2llDigits s slen 0 false value

/-! ## Decimal numbers -/

/-- `s` is the decimal form of a number above zero. -/
def IsPositive (s : Bytes) : Prop :=
  ∃ c ds, s = c :: ds ∧ 49#8 ≤ c ∧ c ≤ 57#8 ∧ ∀ d ∈ ds, isDigit d

/-- `s` is the decimal form of `n`. -/
def IsDecimal (s : Bytes) (n : ℤ) : Prop :=
  s = [48#8] ∧ n = 0 ∨ IsPositive s ∧ n = digitsValue s ∨
    ∃ t, s = 45#8 :: t ∧ IsPositive t ∧ n = -digitsValue t

theorem digitsValue_append (s : Bytes) (d : BitVec 8) :
    digitsValue (s ++ [d]) = 10 * digitsValue s + (d.toNat - 48) := by
  rw [digitsValue, List.foldl_append]
  rfl

theorem IsPositive.pos {s : Bytes} (h : IsPositive s) : 0 < digitsValue s := by
  obtain ⟨c, ds, rfl, hlow, hhigh, -⟩ := h
  induction ds using List.reverseRecOn with
  | nil =>
    have hv : digitsValue [c] = c.toNat - 48 := by simp [digitsValue]
    rw [hv]
    bv_omega
  | append_singleton ds d ih =>
    rw [← List.cons_append, digitsValue_append]
    omega

theorem byte_digitChar {d : BitVec 8} (hd : isDigit d) :
    byte (Nat.digitChar (d.toNat - 48)) = d := by
  rw [isDigit, decide_eq_true_eq, BitVec.le_def, BitVec.le_def] at hd
  have hall : ∀ k < 10, byte (Nat.digitChar k) = BitVec.ofNat 8 (k + 48) := by decide
  rw [hall _ (by simp at hd; omega)]
  apply BitVec.eq_of_toNat_eq
  rw [BitVec.toNat_ofNat]
  simp at hd
  omega

/-- A number above zero has one decimal form. -/
theorem IsPositive.digitsOf {s : Bytes} (h : IsPositive s) :
    Nowra.digitsOf 10 (digitsValue s) = s := by
  obtain ⟨c, ds, rfl, hlow, hhigh, hds⟩ := h
  induction ds using List.reverseRecOn with
  | nil =>
    have hc : isDigit c := by simp only [isDigit, decide_eq_true_eq]; bv_omega
    have hv : digitsValue [c] = c.toNat - 48 := by simp [digitsValue]
    rw [hv, Nowra.digitsOf, Nat.toDigits_of_lt_base (by bv_omega), List.map_singleton,
      byte_digitChar hc]
  | append_singleton ds d ih =>
    have hd := hds d (by simp)
    have hds' : ∀ d ∈ ds, isDigit d := fun d hd => hds d (by simp [hd])
    have hpos : 0 < digitsValue (c :: ds) := IsPositive.pos ⟨c, ds, rfl, hlow, hhigh, hds'⟩
    have hlt : d.toNat - 48 < 10 := by
      rw [isDigit, decide_eq_true_eq] at hd
      bv_omega
    rw [← List.cons_append, digitsValue_append, Nowra.digitsOf,
      Nat.toDigits_of_base_le (by decide) (by omega), List.map_append]
    have hdiv : (10 * digitsValue (c :: ds) + (d.toNat - 48)) / 10 = digitsValue (c :: ds) := by
      omega
    have hmod : (10 * digitsValue (c :: ds) + (d.toNat - 48)) % 10 = d.toNat - 48 := by omega
    rw [hdiv, hmod, List.map_singleton, byte_digitChar hd]
    exact congrArg (· ++ [d]) (ih hds')

theorem isPositive_digitsOf (n : ℕ) (hn : 0 < n) : IsPositive (digitsOf 10 n) := by
  induction n using Nat.strong_induction_on with
  | _ n ih =>
    rcases Nat.lt_or_ge n 10 with hlt | hge
    · have hall : ∀ k < 10, 0 < k → 49#8 ≤ byte (Nat.digitChar k) ∧
          byte (Nat.digitChar k) ≤ 57#8 := by decide
      obtain ⟨hlow, hhigh⟩ := hall n hlt hn
      exact ⟨_, [], by rw [digitsOf, Nat.toDigits_of_lt_base hlt]; rfl, hlow, hhigh, by simp⟩
    · obtain ⟨c, ds, heq, hlow, hhigh, hds⟩ := ih (n / 10) (by omega) (by omega)
      have hsnoc : digitsOf 10 n = digitsOf 10 (n / 10) ++ digitsOf 10 (n % 10) := by
        rw [digitsOf, Nat.toDigits_of_base_le (by decide) hge, List.map_append, digitsOf,
          digitsOf, Nat.toDigits_of_lt_base (Nat.mod_lt n (by decide))]
      refine ⟨c, ds ++ digitsOf 10 (n % 10), by rw [hsnoc, heq]; rfl, hlow, hhigh, ?_⟩
      intro d hd
      rcases List.mem_append.1 hd with hd | hd
      · exact hds d hd
      · exact isDigit_of_mem hd

/-- The decimal numbers are what `%d` prints. -/
theorem isDecimal_iff {s : Bytes} {n : ℤ} : IsDecimal s n ↔ s = fmtInt n := by
  constructor
  · rintro (⟨rfl, rfl⟩ | ⟨hs, rfl⟩ | ⟨t, rfl, ht, rfl⟩)
    · decide
    · rw [fmtInt_natCast, hs.digitsOf]
    · rw [fmtInt_neg ht.pos, ht.digitsOf]
      rfl
  · rintro rfl
    rcases lt_trichotomy n 0 with hneg | rfl | hpos
    · obtain ⟨k, hk⟩ := Int.eq_ofNat_of_zero_le (show 0 ≤ -n by omega)
      obtain rfl : n = -k := by omega
      refine .inr (.inr ⟨digitsOf 10 k, fmtInt_neg (by omega), ?_, ?_⟩)
      · exact isPositive_digitsOf k (by omega)
      · rw [digitsValue_digitsOf]
    · exact .inl ⟨by decide, rfl⟩
    · obtain ⟨k, rfl⟩ := Int.eq_ofNat_of_zero_le hpos.le
      refine .inr (.inl ⟨?_, by rw [fmtInt_natCast, digitsValue_digitsOf]⟩)
      rw [fmtInt_natCast]
      exact isPositive_digitsOf k (by omega)

/-! ## The loop -/

theorem byteOf_append (pre rest : Bytes) (c : BitVec 8) :
    byteOf (pre ++ c :: rest) pre.length = .ok c := by
  rw [byteOf, List.getElem?_append_right le_rfl, Nat.sub_self]
  rfl

theorem digitOf_toNat {c : BitVec 8} (hc : isDigit c) : (digitOf c).toNat = c.toNat - 48 := by
  rw [isDigit, decide_eq_true_eq] at hc
  rw [digitOf]
  bv_omega

/-- The number that digits make behind digits of the value `m`. -/
def digitsFrom (m : ℕ) (ds : Bytes) : ℕ := ds.foldl (fun n c => 10 * n + (c.toNat - 48)) m

theorem le_digitsFrom (ds : Bytes) : ∀ m, m ≤ digitsFrom m ds := by
  induction ds with
  | nil => exact fun m => le_rfl
  | cons c ds ih =>
    intro m
    have hm : m ≤ 10 * m + (c.toNat - 48) := by omega
    exact hm.trans (ih _)

theorem digitOf_le {c : BitVec 8} (hc : isDigit c) : (digitOf c).toNat ≤ 9 := by
  rw [digitOf_toNat hc]
  rw [isDigit, decide_eq_true_eq] at hc
  bv_omega

theorem ullongMax_toNat : ullongMax.toNat = 2 ^ 64 - 1 := rfl

/-- The check before the multiplication. -/
theorem mul_overflow_iff (v : BitVec 64) : v > ullongMax / 10#64 ↔ 2 ^ 64 ≤ 10 * v.toNat := by
  have hten : (10#64).toNat = 10 := rfl
  rw [gt_iff_lt, BitVec.lt_def, BitVec.toNat_udiv, ullongMax_toNat, hten]
  omega

theorem mul_toNat {v : BitVec 64} (h : ¬v > ullongMax / 10#64) :
    (v * 10#64).toNat = 10 * v.toNat := by
  rw [mul_overflow_iff] at h
  have hten : (10#64).toNat = 10 := rfl
  rw [BitVec.toNat_mul, hten, Nat.mul_comm]
  exact Nat.mod_eq_of_lt (by omega)

/-- The check before the addition. -/
theorem add_overflow_iff (v : BitVec 64) {c : BitVec 8} (hc : isDigit c) :
    v > ullongMax - digitOf c ↔ 2 ^ 64 ≤ v.toNat + (c.toNat - 48) := by
  have hk9 := digitOf_le hc
  have hsub : (ullongMax - digitOf c).toNat = 2 ^ 64 - 1 - (digitOf c).toNat :=
    BitVec.toNat_sub_of_le (by rw [BitVec.le_def, ullongMax_toNat]; omega)
  rw [gt_iff_lt, BitVec.lt_def, hsub, ← digitOf_toNat hc]
  omega

theorem add_toNat {v : BitVec 64} {c : BitVec 8} (hc : isDigit c)
    (h : ¬v > ullongMax - digitOf c) : (v + digitOf c).toNat = v.toNat + (c.toNat - 48) := by
  rw [add_overflow_iff v hc, ← digitOf_toNat hc] at h
  rw [BitVec.toNat_add, ← digitOf_toNat hc]
  exact Nat.mod_eq_of_lt (by omega)

/-- The loop reads the digits that come next, unless their number has more than 64 bits. -/
theorem string2llLoop_eq (rest : Bytes) : ∀ (ds pre : Bytes) (v : BitVec 64),
    string2llLoop (pre ++ (ds ++ rest)) pre.length v ds.length =
      .ok (if digitsFrom v.toNat (ds.takeWhile isDigit) < 2 ^ 64 then
        some ((ds.dropWhile isDigit).length,
          BitVec.ofNat 64 (digitsFrom v.toNat (ds.takeWhile isDigit))) else none)
  | [], pre, v => by
    have hv := v.isLt
    simp [string2llLoop, digitsFrom, hv]
    rfl
  | c :: ds, pre, v => by
    rw [List.length_cons, string2llLoop, List.cons_append, byteOf_append]
    simp only [bind, Except.bind]
    by_cases hc : isDigit c
    · have hle := le_digitsFrom (ds.takeWhile isDigit) (10 * v.toNat + (c.toNat - 48))
      have hfrom : digitsFrom v.toNat (c :: ds.takeWhile isDigit) =
          digitsFrom (10 * v.toNat + (c.toNat - 48)) (ds.takeWhile isDigit) := rfl
      rw [if_pos hc, List.takeWhile_cons_of_pos hc, List.dropWhile_cons_of_pos hc, hfrom]
      by_cases hbig : v > ullongMax / 10#64
      · have hv := (mul_overflow_iff v).1 hbig
        rw [if_pos hbig, if_neg (by omega)]
        rfl
      rw [if_neg hbig]
      by_cases hadd : v * 10#64 > ullongMax - digitOf c
      · have hv := (add_overflow_iff _ hc).1 hadd
        rw [mul_toNat hbig] at hv
        rw [if_pos hadd, if_neg (by omega)]
        rfl
      rw [if_neg hadd]
      have ih := string2llLoop_eq rest ds (pre ++ [c]) (v * 10#64 + digitOf c)
      rw [add_toNat hc hadd, mul_toNat hbig, List.append_assoc, List.length_append,
        List.length_singleton] at ih
      exact ih
    · rw [if_neg hc, List.takeWhile_cons_of_neg hc, List.dropWhile_cons_of_neg hc]
      have hv : digitsFrom v.toNat [] < 2 ^ 64 := v.isLt
      rw [if_pos hv, digitsFrom, List.foldl_nil, BitVec.ofNat_toNat, BitVec.setWidth_eq]
      rfl

/-! ## The result -/

/-- `n` is at least `LLONG_MIN` and at most `LLONG_MAX`. -/
def FitsLongLong (n : ℤ) : Prop := -2 ^ 63 ≤ n ∧ n ≤ 2 ^ 63 - 1

/-- The number with its sign. -/
def signed (negative : Bool) (n : ℕ) : ℤ := if negative then -n else n

theorem string2llEnd_eq {n : ℕ} (hn : n < 2 ^ 64) (negative : Bool)
    (value : Option (BitVec 64)) :
    (FitsLongLong (signed negative n) → string2llEnd 0 (BitVec.ofNat 64 n) negative value =
      (1, value.map fun _ => BitVec.ofInt 64 (signed negative n))) ∧
    (¬FitsLongLong (signed negative n) →
      string2llEnd 0 (BitVec.ofNat 64 n) negative value = (0, value)) := by
  have hv : (BitVec.ofNat 64 n).toNat = n := Nat.mod_eq_of_lt hn
  unfold string2llEnd FitsLongLong signed
  cases negative with
  | true =>
    have hmax : (llongMax + 1#64).toNat = 2 ^ 63 := rfl
    have hneg : BitVec.ofInt 64 (-(n : ℤ)) = -BitVec.ofNat 64 n := by
      rw [BitVec.ofInt_neg, BitVec.ofInt_natCast]
    simp only [gt_iff_lt, lt_irrefl, if_false, if_true, BitVec.lt_def, hv, hmax, hneg]
    constructor <;> intro h
    · rw [if_neg (by omega)]
    · rw [if_pos (by omega)]
  | false =>
    have hmax : llongMax.toNat = 2 ^ 63 - 1 := rfl
    simp only [gt_iff_lt, lt_irrefl, if_false, Bool.false_eq_true, BitVec.lt_def, hv, hmax,
      BitVec.ofInt_natCast]
    constructor <;> intro h
    · rw [if_neg (by omega)]
    · rw [if_pos (by omega)]

/-- What follows the sign is accepted if it is the decimal form of a positive number that is
within the limit of the sign. -/
theorem string2llDigits_eq {pre t rest : Bytes} (negative : Bool) (value : Option (BitVec 64))
    (ht : t ≠ []) (hzero : pre ++ t ≠ [48#8]) :
    (IsPositive t → FitsLongLong (signed negative (digitsValue t)) →
      string2llDigits (pre ++ (t ++ rest)) (pre ++ t).length pre.length negative value =
        .ok (1, value.map fun _ => BitVec.ofInt 64 (signed negative (digitsValue t)))) ∧
    (¬(IsPositive t ∧ FitsLongLong (signed negative (digitsValue t))) →
      string2llDigits (pre ++ (t ++ rest)) (pre ++ t).length pre.length negative value =
        .ok (0, value)) := by
  obtain ⟨c, ds, rfl⟩ := List.exists_cons_of_ne_nil ht
  unfold string2llDigits
  rw [List.cons_append, byteOf_append]
  simp only [bind, Except.bind]
  by_cases hc : 49#8 ≤ c ∧ c ≤ 57#8
  · have hcd : isDigit c := by
      rw [isDigit, decide_eq_true_eq]
      bv_omega
    have hloop := string2llLoop_eq rest ds (pre ++ [c]) (digitOf c)
    have hleft : (pre ++ c :: ds).length - (pre.length + 1) = ds.length := by simp; omega
    rw [List.append_assoc, List.length_append, List.length_singleton] at hloop
    rw [List.cons_append, List.nil_append] at hloop
    rw [if_pos hc, hleft, hloop]
    by_cases hall : ∀ d ∈ ds, isDigit d
    · have hpos : IsPositive (c :: ds) := ⟨c, ds, rfl, hc.1, hc.2, hall⟩
      have htake : ds.takeWhile isDigit = ds := List.takeWhile_eq_self_iff.2 hall
      have hdrop : ds.dropWhile isDigit = [] := List.dropWhile_eq_nil_iff.2 hall
      have hvalue : digitsFrom (digitOf c).toNat ds = digitsValue (c :: ds) := by
        rw [digitOf_toNat hcd, digitsValue, List.foldl_cons, Nat.mul_zero, Nat.zero_add]
        rfl
      rw [htake, hdrop, hvalue]
      by_cases hlt : digitsValue (c :: ds) < 2 ^ 64
      · rw [if_pos hlt]
        obtain ⟨hfit, hnot⟩ := string2llEnd_eq hlt negative value
        refine ⟨fun _ h => ?_, fun h => ?_⟩
        · exact congrArg Except.ok (hfit h)
        · exact congrArg Except.ok (hnot fun h' => h ⟨hpos, h'⟩)
      · rw [if_neg hlt]
        refine ⟨fun _ hfits => absurd hfits ?_, fun _ => rfl⟩
        unfold FitsLongLong signed
        split <;> omega
    · have hnot : ¬IsPositive (c :: ds) := by
        rintro ⟨_, _, heq, -, -, hds⟩
        obtain ⟨rfl, rfl⟩ := List.cons.inj heq
        exact hall hds
      have hleft' : 0 < (ds.dropWhile isDigit).length := by
        rw [List.length_pos_iff, ne_eq, List.dropWhile_eq_nil_iff]
        exact hall
      refine ⟨fun h => absurd h hnot, fun _ => ?_⟩
      split_ifs
      · exact congrArg Except.ok (if_pos hleft')
      · rfl
  · have hnot : ¬IsPositive (c :: ds) := by
      rintro ⟨_, _, heq, hlow, hhigh, -⟩
      obtain ⟨rfl, rfl⟩ := List.cons.inj heq
      exact hc ⟨hlow, hhigh⟩
    have hdead : ¬(c = 48#8 ∧ (pre ++ c :: ds).length = 1) := by
      rintro ⟨rfl, hlen⟩
      rw [List.length_append, List.length_cons] at hlen
      have hpre : pre.length = 0 := by omega
      have hds : ds.length = 0 := by omega
      rw [List.length_eq_zero_iff] at hpre hds
      subst hpre hds
      exact hzero rfl
    rw [if_neg hc, if_neg hdead]
    exact ⟨fun h => absurd h hnot, fun _ => rfl⟩

theorem IsPositive.head {c : BitVec 8} {s : Bytes} (h : IsPositive (c :: s)) :
    c ≠ 45#8 ∧ c ≠ 48#8 := by
  obtain ⟨_, _, heq, hlow, -, -⟩ := h
  obtain ⟨rfl, -⟩ := List.cons.inj heq
  constructor <;> bv_omega

/-- A string has a decimal number behind its minus sign, or is one that is not zero. -/
theorem isDecimal_of_ne {s : Bytes} {n : ℤ} (hs : s ≠ [48#8]) :
    IsDecimal s n ↔ (∃ t, s = 45#8 :: t ∧ IsPositive t ∧ n = signed true (digitsValue t)) ∨
      IsPositive s ∧ n = signed false (digitsValue s) := by
  constructor
  · rintro (⟨h, -⟩ | h | h)
    · exact absurd h hs
    · exact .inr h
    · exact .inl h
  · rintro (h | h)
    · exact .inr (.inr h)
    · exact .inr (.inl h)

/-- The result for `s` : the number that `s` is the decimal form of, if a `long long` holds it,
and nothing otherwise. -/
def ResultFor (s : Bytes) (value : Option (BitVec 64)) (r : ℤ × Option (BitVec 64)) : Prop :=
  (∃ n, FitsLongLong n ∧ (∀ m, IsDecimal s m ↔ m = n) ∧
    r = (1, value.map fun _ => BitVec.ofInt 64 n)) ∨
  (∀ n, FitsLongLong n → ¬IsDecimal s n) ∧ r = (0, value)

theorem string2llDigits_result (pre : Bytes) {t : Bytes} {negative : Bool}
    (value : Option (BitVec 64)) (ht : t ≠ []) (hzero : pre ++ t ≠ [48#8])
    (hdec : ∀ n, IsDecimal (pre ++ t) n ↔ IsPositive t ∧ n = signed negative (digitsValue t)) :
    ∃ r, (∀ rest, string2llDigits (pre ++ (t ++ rest)) (pre ++ t).length pre.length negative
        value = .ok r) ∧ ResultFor (pre ++ t) value r := by
  by_cases h : IsPositive t ∧ FitsLongLong (signed negative (digitsValue t))
  · refine ⟨_, fun rest => (string2llDigits_eq negative value ht hzero).1 h.1 h.2, .inl ?_⟩
    exact ⟨_, h.2, fun m => by rw [hdec, and_iff_right h.1], rfl⟩
  · refine ⟨_, fun rest => (string2llDigits_eq negative value ht hzero).2 h, .inr ⟨?_, rfl⟩⟩
    rintro n hn hdec'
    obtain ⟨ht', rfl⟩ := (hdec n).1 hdec'
    exact h ⟨ht', hn⟩

/-- Zero. -/
theorem string2ll_zero (value : Option (BitVec 64)) :
    ∃ r, (∀ rest, string2ll ([48#8] ++ rest) 1 value = .ok r) ∧ ResultFor [48#8] value r := by
  refine ⟨(1, value.map fun _ => 0#64), fun rest => rfl, .inl ⟨0, ?_, fun m => ?_, rfl⟩⟩
  · unfold FitsLongLong
    omega
  · constructor
    · rintro (⟨-, rfl⟩ | ⟨h, -⟩ | ⟨_, h, -⟩)
      · rfl
      · exact absurd rfl h.head.2
      · exact absurd (List.cons.inj h).1 (by decide)
    · rintro rfl
      exact .inl ⟨rfl, rfl⟩

/-- A string that starts with a minus sign. -/
theorem string2ll_minus (t : Bytes) (value : Option (BitVec 64)) :
    ∃ r, (∀ rest, string2ll (45#8 :: t ++ rest) (45#8 :: t).length value = .ok r) ∧
      ResultFor (45#8 :: t) value r := by
  have hzero : 45#8 :: t ≠ [48#8] := by
    intro h
    exact absurd (List.cons.inj h).1 (by decide)
  have hdec (n : ℤ) : IsDecimal (45#8 :: t) n ↔
      IsPositive t ∧ n = signed true (digitsValue t) := by
    rw [isDecimal_of_ne hzero]
    constructor
    · rintro (⟨t', h, ht⟩ | ⟨h, -⟩)
      · obtain rfl := (List.cons.inj h).2
        exact ht
      · exact absurd rfl h.head.1
    · exact fun h => .inl ⟨t, rfl, h⟩
  cases t with
  | nil =>
    refine ⟨(0, value), fun rest => rfl, .inr ⟨fun n _ h => ?_, rfl⟩⟩
    obtain ⟨⟨_, _, h, -⟩, -⟩ := (hdec n).1 h
    cases h
  | cons d t =>
    obtain ⟨r, hr, hcases⟩ := string2llDigits_result [45#8] value (by simp) hzero hdec
    refine ⟨r, fun rest => ?_, hcases⟩
    rw [← hr rest]
    rfl

/-- The bytes behind the string have no part in the result. -/
theorem string2ll_result (s : Bytes) (value : Option (BitVec 64)) :
    ∃ r, (∀ rest, string2ll (s ++ rest) s.length value = .ok r) ∧ ResultFor s value r := by
  cases s with
  | nil =>
    refine ⟨(0, value), fun rest => rfl, .inr ⟨?_, rfl⟩⟩
    rintro n - (⟨h, -⟩ | ⟨⟨_, _, h, -⟩, -⟩ | ⟨_, h, -⟩) <;> cases h
  | cons c t =>
    by_cases hzero : c :: t = [48#8]
    · obtain ⟨rfl, rfl⟩ := List.cons.inj hzero
      exact string2ll_zero value
    by_cases hc : c = 45#8
    · subst hc
      exact string2ll_minus t value
    have hread (rest : Bytes) : byteOf (c :: t ++ rest) 0 = .ok c := rfl
    have hlen : (c :: t).length ≠ 0 := by simp
    have hone : ¬((c :: t).length = 1 ∧ c = 48#8) := by
      rintro ⟨ht, rfl⟩
      obtain rfl : t = [] := List.length_eq_zero_iff.1 (by simpa using ht)
      exact hzero rfl
    have hdec (n : ℤ) : IsDecimal (c :: t) n ↔
        IsPositive (c :: t) ∧ n = signed false (digitsValue (c :: t)) := by
      rw [isDecimal_of_ne hzero]
      constructor
      · rintro (⟨t', h, -⟩ | h)
        · exact absurd (List.cons.inj h).1 hc
        · exact h
      · exact .inr
    obtain ⟨r, hr, hcases⟩ := string2llDigits_result [] value (by simp) hzero hdec
    refine ⟨r, fun rest => ?_, hcases⟩
    rw [← hr rest, string2ll, if_neg hlen, hread]
    simp only [bind, Except.bind, if_neg hone, if_neg hc]
    rfl

/-- `string2ll` accepts the decimal numbers that fit a `long long`, and only these. It depends
on no byte behind the string, and leaves the variable alone when it returns 0. -/
theorem string2ll_exact (s : Bytes) (value : Option (BitVec 64)) :
    ∃ r, (∀ rest, string2ll (s ++ rest) s.length value = .ok r) ∧
      (r.1 = 1 ↔ ∃ n, FitsLongLong n ∧ IsDecimal s n) ∧
      (∀ n, FitsLongLong n → IsDecimal s n → r = (1, value.map fun _ => BitVec.ofInt 64 n)) ∧
      (r.1 ≠ 1 → r = (0, value)) ∧
      ∀ v : BitVec 64, s = fmtInt v.toInt → r = (1, value.map fun _ => v) := by
  obtain ⟨r, hr, hcases⟩ := string2ll_result s value
  have hstore : ∀ n, FitsLongLong n → IsDecimal s n →
      r = (1, value.map fun _ => BitVec.ofInt 64 n) := by
    intro n hn hdec
    rcases hcases with ⟨m, -, huniq, rfl⟩ | ⟨hnone, -⟩
    · rw [(huniq n).1 hdec]
    · exact absurd hdec (hnone n hn)
  refine ⟨r, hr, ⟨fun h => ?_, ?_⟩, hstore, fun h => ?_, fun v hv => ?_⟩
  · rcases hcases with ⟨n, hn, huniq, -⟩ | ⟨-, rfl⟩
    · exact ⟨n, hn, (huniq n).2 rfl⟩
    · cases h
  · rintro ⟨n, hn, hdec⟩
    rw [hstore n hn hdec]
  · rcases hcases with ⟨n, -, -, rfl⟩ | ⟨-, rfl⟩
    · exact absurd rfl h
    · rfl
  · have hle := v.le_toInt
    have hlt := BitVec.toInt_lt (x := v)
    rw [hstore v.toInt ⟨by simpa using hle, by simp at hlt; omega⟩ (isDecimal_iff.2 hv),
      BitVec.ofInt_toInt]

end Nowra
