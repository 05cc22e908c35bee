import Nowra.MasterEnt

/-!
# One directive of sprintf

What `sprintf` makes of a format string with a single directive. The directive is taken apart as the
C library does it (`formatSpec`), which is not how `vbuf_print` does it. With what the C standard
leaves undefined, there is no result.

The result is as long as the field is wide, or longer where the value does not fit (`field_length`).
A number or an address takes up to 23 bytes, or its precision and one or two more
(`number_length`).
-/

namespace Nowra

/-- A character as a byte. -/
def byte (c : Char) : BitVec 8 := BitVec.ofNat 8 c.toNat

/-- An argument in a variable argument list. A string is the memory at its address. -/
inductive VaArg
  | int (n : BitVec 32)
  | long (n : BitVec 64)
  | str (s : Bytes)
  | ptr (p : BitVec 64)
  | double (bits : BitVec 64)
  deriving DecidableEq

/-! ## Directives -/

/-- A directive of `sprintf`. -/
structure FormatSpec where
  minus : Bool
  plus : Bool
  zero : Bool
  width : ℕ
  /-- Nothing is no precision. -/
  prec : Option ℕ
  long : Bool
  conv : BitVec 8
  deriving DecidableEq

/-- A flag. The others never come out of `vbuf_print`. -/
def isFlag (c : BitVec 8) : Bool := c ∈ cstr "-+0"

/-- The precision, if there is one, and what follows it. -/
def takePrec (s : Bytes) : Option ℕ × Bytes :=
  if s.head? = some (byte '.') then
    (some (digitsValue (s.tail.takeWhile isDigit)), s.tail.dropWhile isDigit)
  else (none, s)

/-- A format string with one directive that has a meaning : the numbers are ints, and `l` is for
numbers. -/
def formatSpec (format : Bytes) : Option FormatSpec :=
  if format.head? = some (byte '%') then
    let flags := format.tail.takeWhile isFlag
    let s := format.tail.dropWhile isFlag
    let width := digitsValue (s.takeWhile isDigit)
    let (prec, s) := takePrec (s.dropWhile isDigit)
    let long := s.head? = some (byte 'l')
    match if long then s.tail else s with
    | [conv] =>
      if width < 2 ^ 31 ∧ prec.getD 0 < 2 ^ 31 ∧ (long → conv ∈ cstr "duoxX") then
        some
          { minus := byte '-' ∈ flags, plus := byte '+' ∈ flags, zero := byte '0' ∈ flags
            width := width, prec := prec, long := long, conv := conv }
      else none
    | _ => none
  else none

/-! ## Fields -/

/-- Digits in a base. -/
def digitsOf (base n : ℕ) : Bytes := (Nat.toDigits base n).map byte

/-- Digits in upper case. -/
def toUpper (s : Bytes) : Bytes := s.map fun c => if 97#8 ≤ c then c - 32#8 else c

namespace FormatSpec

/-- The digits of a number, with as many zeros in front as the precision says. -/
def digits (f : FormatSpec) (base n : ℕ) : Bytes :=
  if n = 0 ∧ f.prec = some 0 then []
  else
    List.replicate (f.prec.getD 1 - (digitsOf base n).length) (byte '0') ++ digitsOf base n

/-- Fill up the field with blanks. -/
def field (f : FormatSpec) (s : Bytes) : Bytes :=
  let blanks := List.replicate (f.width - s.length) (byte ' ')
  if f.minus then s ++ blanks else blanks ++ s

/-- Fill up the field of a number, with zeros behind the sign or with blanks. -/
def numField (f : FormatSpec) (sign digits : Bytes) : Bytes :=
  if f.zero ∧ ¬f.minus ∧ f.prec = none then
    sign ++ List.replicate (f.width - (sign ++ digits).length) (byte '0') ++ digits
  else f.field (sign ++ digits)

/-- What is printed of a string, which need not end inside the precision. -/
def cut (f : FormatSpec) (s : Bytes) : Option Bytes :=
  match f.prec with
  | none => if 0 ∈ s then some (s.takeWhile (· ≠ 0)) else none
  | some prec => if 0 ∈ s ∨ prec ≤ s.length then some (strPrefix s prec) else none

/-- A number, as signed and as unsigned. -/
def number (f : FormatSpec) (signed : ℤ) (unsigned : ℕ) : Option Bytes :=
  if f.conv = byte 'd' then
    let sign := if signed < 0 then cstr "-" else if f.plus then cstr "+" else []
    some (f.numField sign (f.digits 10 signed.natAbs))
  else if f.conv = byte 'u' then some (f.numField [] (f.digits 10 unsigned))
  else if f.conv = byte 'o' then some (f.numField [] (f.digits 8 unsigned))
  else if f.conv = byte 'x' then some (f.numField [] (f.digits 16 unsigned))
  else if f.conv = byte 'X' then some (f.numField [] (toUpper (f.digits 16 unsigned)))
  else none

/-- What is printed of the argument. `%p` is printed without the sign that glibc puts in front of it
for a plus. -/
def output (f : FormatSpec) : VaArg → Option Bytes
  | .str s => if f.conv = byte 's' then (f.cut s).map f.field else none
  | .int n =>
    if f.long then none
    else if f.conv = byte 'c' then some (f.field [n.setWidth 8])
    else f.number n.toInt n.toNat
  | .long n => if f.long then f.number n.toInt n.toNat else none
  | .ptr p =>
    if f.conv = byte 'p' then
      some (if p = 0 then f.field (cstr "(nil)") else f.numField (cstr "0x") (f.digits 16 p.toNat))
    else none
  | .double _ => none

end FormatSpec

/-- `sprintf` with one directive, without the null byte that it writes at the end. -/
def sprintf (format : Bytes) (arg : VaArg) : Option Bytes :=
  (formatSpec format).bind fun f => f.output arg

/-- A precision is a dot and what digits there are. -/
theorem takePrec_eq (s : Bytes) : ∃ frac, frac ++ (takePrec s).2 = s ∧
    (frac = [] ∧ (takePrec s).1 = none ∨ ∃ digits, frac = byte '.' :: digits ∧
      (∀ c ∈ digits, isDigit c) ∧ (takePrec s).1 = some (digitsValue digits)) := by
  rw [takePrec]
  split
  · rename_i hdot
    cases s with
    | nil => cases hdot
    | cons c s =>
      obtain rfl := Option.some.inj hdot
      exact ⟨byte '.' :: s.takeWhile isDigit,
        congrArg (byte '.' :: ·) List.takeWhile_append_dropWhile,
        .inr ⟨_, rfl, fun c hc => List.mem_takeWhile_imp hc, rfl⟩⟩
  · exact ⟨[], rfl, .inl ⟨rfl, rfl⟩⟩

theorem takeLong_eq (s : Bytes) : (if decide (s.head? = some (byte 'l')) then [byte 'l'] else []) ++
    (if s.head? = some (byte 'l') then s.tail else s) = s := by
  cases s with
  | nil => rfl
  | cons c s =>
    by_cases hl : c = byte 'l'
    · subst hl
      rfl
    · simp [hl]

/-- What a directive that has a meaning is made of. -/
theorem formatSpec_some {format : Bytes} {f : FormatSpec} (h : formatSpec format = some f) :
    ∃ flags width frac long, format = byte '%' :: (flags ++ width ++ frac ++ long) ++ [f.conv] ∧
      (∀ c ∈ flags, isFlag c) ∧ (∀ c ∈ width, isDigit c) ∧ f.width = digitsValue width ∧
      (frac = [] ∧ f.prec = none ∨ ∃ digits, frac = byte '.' :: digits ∧
        (∀ c ∈ digits, isDigit c) ∧ f.prec = some (digitsValue digits)) ∧
      long = (if f.long then [byte 'l'] else []) ∧ f.prec.getD 0 < 2 ^ 31 ∧
      (f.long → f.conv ∈ cstr "duoxX") := by
  simp only [formatSpec] at h
  split at h
  · rename_i hhead
    obtain ⟨s, rfl⟩ : ∃ s, format = byte '%' :: s := by
      cases format with
      | nil => cases hhead
      | cons c s => exact ⟨s, congrArg (· :: s) (Option.some.inj hhead)⟩
    rw [List.tail_cons] at h
    have hflags : s.takeWhile isFlag ++ s.dropWhile isFlag = s := List.takeWhile_append_dropWhile
    have hflag : ∀ c ∈ s.takeWhile isFlag, isFlag c := fun c hc => List.mem_takeWhile_imp hc
    generalize s.takeWhile isFlag = flags at h hflags hflag
    generalize s.dropWhile isFlag = s₁ at h hflags
    have hwidth : s₁.takeWhile isDigit ++ s₁.dropWhile isDigit = s₁ :=
      List.takeWhile_append_dropWhile
    have hdigit : ∀ c ∈ s₁.takeWhile isDigit, isDigit c := fun c hc => List.mem_takeWhile_imp hc
    generalize s₁.takeWhile isDigit = width at h hwidth hdigit
    generalize s₁.dropWhile isDigit = s₂ at h hwidth
    obtain ⟨frac, hfrac, hprec⟩ := takePrec_eq s₂
    generalize takePrec s₂ = r at h hfrac hprec
    obtain ⟨prec, s₃⟩ := r
    simp only at h hfrac hprec
    split at h
    · rename_i conv hconv
      split at h
      · rename_i hok
        obtain rfl := Option.some.inj h
        refine ⟨flags, width, frac, _, ?_, hflag, hdigit, rfl, hprec, rfl, hok.2.1, ?_⟩
        · rw [← hflags, ← hwidth, ← hfrac]
          conv_lhs => rw [← takeLong_eq s₃, hconv]
          simp only [List.append_assoc, List.cons_append]
        · exact fun hl => hok.2.2 (of_decide_eq_true hl)
      · cases h
    · cases h
  · cases h

/-! ## Lengths -/

theorem digitsOf_length {base n k : ℕ} (hbase : 1 < base) (hk : 0 < k) (hn : n < base ^ k) :
    (digitsOf base n).length ≤ k := by
  rw [digitsOf, List.length_map]
  exact (Nat.length_toDigits_le_iff hbase hk).2 hn

namespace FormatSpec

variable {f : FormatSpec}

theorem field_length (s : Bytes) : (f.field s).length = max f.width s.length := by
  rw [field]
  split
  · rw [List.length_append, List.length_replicate]
    omega
  · rw [List.length_append, List.length_replicate]
    omega

theorem numField_length (sign digits : Bytes) :
    (f.numField sign digits).length = max f.width (sign ++ digits).length := by
  rw [numField]
  split
  · simp only [List.length_append, List.length_replicate]
    omega
  · exact field_length _

theorem cut_none {s : Bytes} (h : f.prec = none) (h0 : 0 ∈ s) :
    f.cut s = some (s.takeWhile (· ≠ 0)) := by
  rw [cut, h]
  exact if_pos h0

theorem cut_some {s : Bytes} {prec : ℕ} (h : f.prec = some prec) (h0 : 0 ∈ s) :
    f.cut s = some (strPrefix s prec) := by
  rw [cut, h]
  exact if_pos (.inl h0)

/-- A number of 64 bits has at most 22 digits, in octal. -/
theorem digits_length {base n : ℕ} (hbase : base = 8 ∨ base = 10 ∨ base = 16) (hn : n < 2 ^ 64) :
    (f.digits base n).length ≤ max (f.prec.getD 1) 22 := by
  have hdigits : (digitsOf base n).length ≤ 22 := by
    rcases hbase with rfl | rfl | rfl
    · exact digitsOf_length (by decide) (by decide) (hn.trans (by decide))
    · exact digitsOf_length (by decide) (by decide) (hn.trans (by decide))
    · exact digitsOf_length (by decide) (by decide) (hn.trans (by decide))
  rw [digits]
  split
  · exact Nat.zero_le _
  · rw [List.length_append, List.length_replicate]
    omega

/-- A number has at most one byte in front of its digits. -/
theorem number_length {signed : ℤ} {unsigned : ℕ} {out : Bytes} (hs : signed.natAbs < 2 ^ 64)
    (hu : unsigned < 2 ^ 64) (h : f.number signed unsigned = some out) :
    ∃ n ≤ max (f.prec.getD 1) 22 + 1, out.length = max f.width n := by
  have hfield : ∀ {sign digits : Bytes}, sign.length ≤ 1 →
      digits.length ≤ max (f.prec.getD 1) 22 → ∃ n ≤ max (f.prec.getD 1) 22 + 1,
        (f.numField sign digits).length = max f.width n := by
    intro sign digits hsign hdigits
    refine ⟨_, ?_, numField_length sign digits⟩
    rw [List.length_append]
    omega
  unfold number at h
  split at h
  · obtain rfl := Option.some.inj h
    refine hfield ?_ (digits_length (.inr (.inl rfl)) hs)
    split
    · exact le_rfl
    · split
      · exact le_rfl
      · exact Nat.zero_le _
  split at h
  · obtain rfl := Option.some.inj h
    exact hfield (Nat.zero_le _) (digits_length (.inr (.inl rfl)) hu)
  split at h
  · obtain rfl := Option.some.inj h
    exact hfield (Nat.zero_le _) (digits_length (.inl rfl) hu)
  split at h
  · obtain rfl := Option.some.inj h
    exact hfield (Nat.zero_le _) (digits_length (.inr (.inr rfl)) hu)
  split at h
  · obtain rfl := Option.some.inj h
    refine hfield (Nat.zero_le _) ?_
    rw [toUpper, List.length_map]
    exact digits_length (.inr (.inr rfl)) hu
  · cases h

/-- What is printed of an argument that is no string is as long as the field is wide, or longer, but
then it has few digits more than its precision says. -/
theorem output_length {arg : VaArg} {out : Bytes} (h : f.output arg = some out)
    (harg : ∀ s, arg ≠ .str s) :
    ∃ n ≤ max (f.prec.getD 1) 22 + 2, out.length = max f.width n := by
  have hnumber : ∀ {w : ℕ} (n : BitVec w), w ≤ 64 → f.number n.toInt n.toNat = some out →
      ∃ k ≤ max (f.prec.getD 1) 22 + 2, out.length = max f.width k := by
    intro w n hw h
    have hpow : 2 ^ w ≤ 2 ^ 64 := Nat.pow_le_pow_right (by decide) hw
    have hlt := n.isLt
    have hpos := Nat.two_pow_pos w
    have habs : n.toInt.natAbs < 2 ^ 64 := by
      rw [BitVec.toInt_eq_toNat_cond]
      split <;> omega
    obtain ⟨k, hk, hlen⟩ := number_length habs (hlt.trans_le hpow) h
    exact ⟨k, by omega, hlen⟩
  cases arg with
  | str s => exact absurd rfl (harg s)
  | int n =>
    simp only [output] at h
    split at h
    · cases h
    · split at h
      · obtain rfl := Option.some.inj h
        exact ⟨1, by omega, field_length _⟩
      · exact hnumber n (by decide) h
  | long n =>
    simp only [output] at h
    split at h
    · exact hnumber n le_rfl h
    · cases h
  | ptr p =>
    simp only [output] at h
    split at h
    · obtain rfl := Option.some.inj h
      split
      · exact ⟨5, by omega, field_length _⟩
      · refine ⟨_, ?_, numField_length _ _⟩
        have hprefix : (cstr "0x").length = 2 := by decide
        have hdigits := @digits_length f 16 p.toNat (.inr (.inr rfl)) p.isLt
        rw [List.length_append]
        omega
    · cases h
  | double x => cases h

/-- A number is printed for each type of a number. -/
theorem exists_number (h : f.conv ∈ cstr "duoxX") (signed : ℤ) (unsigned : ℕ) :
    ∃ out, f.number signed unsigned = some out := by
  have hcstr : cstr "duoxX" = [byte 'd', byte 'u', byte 'o', byte 'x', byte 'X'] := by decide
  simp only [hcstr, List.mem_cons, List.not_mem_nil, or_false] at h
  unfold number
  rcases h with h | h | h | h | h
  all_goals simp [h, byte]

end FormatSpec

example : sprintf (cstr "%-5d") (.int 42) = some (cstr "42   ") := by decide

end Nowra
