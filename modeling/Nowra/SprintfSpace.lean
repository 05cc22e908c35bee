import Nowra.Pieces

/-!
# The space that sprintf needs

Before it calls `sprintf`, `vbuf_print` requests the width or the precision, whichever is more, and
32 bytes. It takes a negative number from the arguments for zero. `sprintf` reads the directive that
was put together, where a minus sign is a flag and what follows it a width. The precision, `l` and
the type are read as they were meant (`formatSpec_assemble`), and numbers and addresses fit into the
32 bytes (`FormatSpec.output_length`).

What is left is `Piece.Bounded` : the directive has a meaning, and neither the field nor a string
without precision goes beyond the space. A format is printed inside the space of any buffer if that
holds of its calls, and otherwise a buffer that makes no more space than requested is overrun
(`staysInside_iff`).
-/

namespace Nowra

/-! ## The numbers of a directive -/

/-- Digits are read as an `int` if their value is one. -/
theorem intOfDigits_eq {digits : Bytes} (hd : ∀ c ∈ digits, isDigit c)
    (hlt : digitsValue digits < 2 ^ 31) : intOfDigits digits = digitsValue digits := by
  have hge : ∀ (l : Bytes) (m : ℕ), m ≤ l.foldl (fun n c => 10 * n + (c.toNat - 48)) m := by
    intro l
    induction l with
    | nil => exact fun m => le_rfl
    | cons c l ih => exact fun m => (show m ≤ 10 * m + (c.toNat - 48) by omega).trans (ih _)
  have hfold : ∀ (l : Bytes), (∀ c ∈ l, isDigit c) → ∀ m : ℕ,
      l.foldl (fun n c => 10 * n + (c.toNat - 48)) m < 2 ^ 31 →
      l.foldl (fun n c => intOf (n * 10 + c.toNat - 48)) (m : ℤ) =
        (l.foldl (fun n c => 10 * n + (c.toNat - 48)) m : ℕ) := by
    intro l hl
    induction l with
    | nil => exact fun m _ => rfl
    | cons c l ih =>
      intro m hm
      rw [List.foldl_cons] at hm ⊢
      rw [List.foldl_cons]
      have hc := hl c List.mem_cons_self
      rw [isDigit, decide_eq_true_eq, BitVec.le_def, BitVec.le_def] at hc
      have hlow : 48 ≤ c.toNat := hc.1
      have hnext := (hge l (10 * m + (c.toNat - 48))).trans_lt hm
      have hint : intOf ((m : ℤ) * 10 + c.toNat - 48) = (10 * m + (c.toNat - 48) : ℕ) := by
        rw [intOf_eq (by omega) (by omega)]
        omega
      rw [hint]
      exact ih (fun d hd => hl d (List.mem_cons_of_mem _ hd)) _ hm
  exact hfold digits hd 0 hlt

/-- The bytes of a number are digits, with a sign in front if it is negative. -/
theorem NumPart.take_bytes {part : NumPart} {ap rest : List VaArg} {bytes : Bytes} {v : ℤ}
    (h : part.take ap = .ok (bytes, v, rest)) :
    ∀ c ∈ bytes, isDigit c ∨ c = byte '-' := by
  cases part with
  | lit digits =>
    obtain ⟨rfl, -, -⟩ : digits.1 = bytes ∧ _ ∧ _ := by simpa using Except.ok.inj h
    exact fun c hc => .inl (digits.2 c hc)
  | star =>
    obtain ⟨⟨n, ap'⟩, -, h⟩ := bind_ok_iff.1 h
    obtain ⟨rfl, -, -⟩ : fmtInt n.toInt = bytes ∧ _ ∧ _ := by simpa using Except.ok.inj h
    intro c hc
    rcases fmtInt_cases n.toInt with ⟨k, -, hfmt⟩ | ⟨k, -, hfmt⟩
    · exact .inl (isDigit_of_mem (hfmt ▸ hc))
    · rw [hfmt] at hc
      exact (List.mem_cons.1 hc).symm.imp_left isDigit_of_mem

/-- The value of digits is the one that the C library reads. -/
theorem NumPart.take_value {part : NumPart} {ap rest : List VaArg} {bytes : Bytes} {v : ℤ}
    (h : part.take ap = .ok (bytes, v, rest)) (hd : ∀ c ∈ bytes, isDigit c)
    (hlt : digitsValue bytes < 2 ^ 31) : v = digitsValue bytes := by
  cases part with
  | lit digits =>
    obtain ⟨rfl, rfl, -⟩ : digits.1 = bytes ∧ intOfDigits digits = v ∧ _ := by
      simpa using Except.ok.inj h
    exact intOfDigits_eq hd hlt
  | star =>
    obtain ⟨⟨n, ap'⟩, -, h⟩ := bind_ok_iff.1 h
    obtain ⟨rfl, rfl, -⟩ : fmtInt n.toInt = bytes ∧ n.toInt = v ∧ _ := by
      simpa using Except.ok.inj h
    rcases fmtInt_cases n.toInt with ⟨k, hk, hfmt⟩ | ⟨k, -, hfmt⟩
    · rw [hfmt, hk, digitsValue_digitsOf]
    · exact absurd (hd (byte '-') (hfmt ▸ List.mem_cons_self)) (by decide)

theorem mem_optChar {present : Bool} {c : Char} {ch : BitVec 8} (h : ch ∈ optChar present c) :
    ch = byte c := by
  rw [optChar] at h
  split at h
  · exact List.mem_singleton.1 h
  · exact absurd h List.not_mem_nil

/-- A character that is nowhere else is at the end of both or of neither. -/
theorem append_optChar_inj {xs ys : Bytes} {present present' : Bool} {c : Char}
    (hx : byte c ∉ xs) (hy : byte c ∉ ys)
    (h : xs ++ optChar present c = ys ++ optChar present' c) : present = present' ∧ xs = ys := by
  cases present with
  | false =>
    rw [optChar, if_neg Bool.false_ne_true, List.append_nil] at h
    cases present' with
    | false => exact ⟨rfl, h.trans (List.append_nil _)⟩
    | true => exact absurd (h ▸ List.mem_append_right _ (List.mem_singleton.2 rfl)) hx
  | true =>
    cases present' with
    | false =>
      have h' : xs ++ [byte c] = ys := h.trans (List.append_nil _)
      exact absurd (h' ▸ List.mem_append_right _ (List.mem_singleton.2 rfl)) hy
    | true => exact ⟨rfl, List.append_cancel_right h⟩

/-- The only dot is in front of the precision. -/
theorem eq_of_append_dot {front back p digits : Bytes} {dot : Bool} (hfront : byte '.' ∉ front)
    (hp : byte '.' ∉ p) (h : front ++ optChar dot '.' ++ p = back ++ byte '.' :: digits) :
    p = digits := by
  cases dot with
  | false =>
    rw [optChar, if_neg Bool.false_ne_true, List.append_nil] at h
    have hm : byte '.' ∈ front ++ p := h ▸ List.mem_append_right _ List.mem_cons_self
    exact absurd hm (List.mem_append.not.2 (not_or.2 ⟨hfront, hp⟩))
  | true =>
    rw [optChar, if_pos rfl, List.append_assoc, List.singleton_append] at h
    exact ((List.append_cons_inj_of_notMem hfront hp).1 h).2.2

theorem isFlag_or_isDigit_ne {c : BitVec 8} (hc : isFlag c ∨ isDigit c) :
    c ≠ byte '.' ∧ c ≠ byte 'l' := by
  constructor <;> rintro rfl <;> exact absurd hc (by decide)

/-- A number is spelt with digits, and with a minus sign, which the C library takes for a flag. -/
theorem NumPart.take_chars {part : NumPart} {ap rest : List VaArg} {bytes : Bytes} {v : ℤ}
    (h : part.take ap = .ok (bytes, v, rest)) : ∀ c ∈ bytes, isFlag c ∨ isDigit c := by
  intro c hc
  rcases NumPart.take_bytes h c hc with hc | rfl
  · exact .inr hc
  · exact .inl (by decide)

/-- In front of the precision there are flags and digits, for the C library. -/
theorem Directive.front_chars (d : Directive) {w : Bytes} (hw : ∀ c ∈ w, isFlag c ∨ isDigit c) :
    ∀ c ∈ optChar d.minus '-' ++ optChar d.plus '+' ++ optChar d.zero '0' ++ w,
      isFlag c ∨ isDigit c := by
  intro c hc
  simp only [List.mem_append, or_assoc] at hc
  rcases hc with hc | hc | hc | hc
  · exact .inl (mem_optChar hc ▸ by decide)
  · exact .inl (mem_optChar hc ▸ by decide)
  · exact .inl (mem_optChar hc ▸ by decide)
  · exact hw c hc

/-- The C library reads the precision, `l` and the type of a directive as they were meant. -/
theorem formatSpec_assemble {d : Directive} {ap rest : List VaArg} {text : Bytes} {width prec : ℤ}
    {type : BitVec 8} {f : FormatSpec} (hd : d.assemble ap = .ok (text, width, prec, rest))
    (hf : formatSpec (text ++ [type]) = some f) :
    f.conv = type ∧ f.long = d.long ∧ ∀ q, f.prec = some q → (q : ℤ) = prec := by
  obtain ⟨⟨w, wv, ap₁⟩, hw, hd⟩ := bind_ok_iff.1 hd
  obtain ⟨⟨p, pv, ap₂⟩, hp, hd⟩ := bind_ok_iff.1 hd
  obtain ⟨rfl, -, rfl, -⟩ : d.spell w p = text ∧ _ ∧ max pv 0 = prec ∧ _ := by
    simpa using Except.ok.inj hd
  obtain ⟨flags, ds, frac, long, heq, hflags, hds, -, hfrac, rfl, hlt, -⟩ := formatSpec_some hf
  obtain ⟨htext, hconv⟩ := List.append_inj' heq rfl
  have htype : f.conv = type := (List.singleton_inj.1 hconv).symm
  have hfront := d.front_chars (NumPart.take_chars hw)
  have hp' := NumPart.take_chars hp
  have hread : ∀ c ∈ flags ++ ds, isFlag c ∨ isDigit c := fun c hc =>
    (List.mem_append.1 hc).imp (hflags c) (hds c)
  obtain ⟨-, htext⟩ := List.cons.inj htext
  generalize optChar d.minus '-' ++ optChar d.plus '+' ++ optChar d.zero '0' ++ w = front at *
  generalize flags ++ ds = back at htext hread
  have hdot : byte '.' ∉ front := fun hm => (isFlag_or_isDigit_ne (hfront _ hm)).1 rfl
  have hdot' : byte '.' ∉ p := fun hm => (isFlag_or_isDigit_ne (hp' _ hm)).1 rfl
  -- there is no `l` but the one in front of the type
  have hl : byte 'l' ∉ front ++ optChar d.dot '.' ++ p := by
    simp only [List.mem_append]
    rintro ((hm | hm) | hm)
    · exact (isFlag_or_isDigit_ne (hfront _ hm)).2 rfl
    · exact absurd (mem_optChar hm) (by decide)
    · exact (isFlag_or_isDigit_ne (hp' _ hm)).2 rfl
  have hl' : byte 'l' ∉ back ++ frac := by
    rw [List.mem_append]
    rintro (hm | hm)
    · exact (isFlag_or_isDigit_ne (hread _ hm)).2 rfl
    · rcases hfrac with ⟨rfl, -⟩ | ⟨digits, rfl, hdigits, -⟩
      · exact absurd hm List.not_mem_nil
      · exact (List.mem_cons.1 hm).elim (by decide) fun hm => absurd (hdigits _ hm) (by decide)
  obtain ⟨hlong, htext⟩ := append_optChar_inj hl hl' htext
  refine ⟨htype, hlong.symm, fun q hq => ?_⟩
  rcases hfrac with ⟨-, hnone⟩ | ⟨digits, rfl, hdigits, hprec⟩
  · cases hnone.symm.trans hq
  obtain rfl := eq_of_append_dot hdot hdot' htext
  obtain rfl := Option.some.inj (hprec.symm.trans hq)
  rw [hprec] at hlt
  rw [NumPart.take_value hp hdigits hlt]
  exact (max_eq_left (Int.natCast_nonneg _)).symm

theorem NumPart.take_lt {part : NumPart} {ap rest : List VaArg} {bytes : Bytes} {v : ℤ}
    (h : part.take ap = .ok (bytes, v, rest)) : v < 2 ^ 31 := by
  cases part with
  | lit digits =>
    obtain ⟨-, rfl, -⟩ : _ ∧ intOfDigits digits = v ∧ _ := by simpa using Except.ok.inj h
    have hfold : ∀ (l : Bytes) (m : ℤ), m < 2 ^ 31 →
        l.foldl (fun n c => intOf (n * 10 + c.toNat - 48)) m < 2 ^ 31 := by
      intro l
      induction l with
      | nil => exact fun m hm => hm
      | cons c l ih =>
        refine fun m _ => ih _ ?_
        change intOf (m * 10 + c.toNat - 48) < 2 ^ 31
        unfold intOf
        omega
    exact hfold digits 0 (by decide)
  | star =>
    obtain ⟨⟨n, ap'⟩, -, h⟩ := bind_ok_iff.1 h
    obtain ⟨-, rfl, -⟩ : _ ∧ n.toInt = v ∧ _ := by simpa using Except.ok.inj h
    exact BitVec.toInt_lt

/-- The numbers of a directive are not negative. -/
theorem Directive.assemble_range {d : Directive} {ap rest : List VaArg} {text : Bytes}
    {width prec : ℤ} (hd : d.assemble ap = .ok (text, width, prec, rest)) :
    0 ≤ width ∧ width < 2 ^ 31 ∧ 0 ≤ prec ∧ prec < 2 ^ 31 := by
  obtain ⟨⟨w, wv, ap₁⟩, hw, hd⟩ := bind_ok_iff.1 hd
  obtain ⟨⟨p, pv, ap₂⟩, hp, hd⟩ := bind_ok_iff.1 hd
  obtain ⟨-, rfl, rfl, -⟩ : _ ∧ max wv 0 = width ∧ max pv 0 = prec ∧ _ := by
    simpa using Except.ok.inj hd
  have := NumPart.take_lt hw
  have := NumPart.take_lt hp
  omega

/-- The space that is requested for a directive, where 32 bytes are for the number. -/
theorem Directive.reserved_eq {d : Directive} {ap rest : List VaArg} {text : Bytes}
    {width prec : ℤ} (hd : d.assemble ap = .ok (text, width, prec, rest)) (type : BitVec 8) :
    (Conversion.reserved ⟨type, width, prec, d.long⟩ 32 : ℤ) = max width prec + 32 := by
  obtain ⟨hw0, hw, hp0, hprec⟩ := d.assemble_range hd
  simp only [Conversion.reserved, sizeTOf]
  split <;> omega

/-! ## Calls that fit -/

/-- The directive of a call has a meaning, and the field is less wide than the space. So is the
string, if there is no precision. -/
def Piece.Bounded : Piece → Prop
  | .copy _ => True
  | .call text reserved arg => ∃ f, formatSpec text = some f ∧ f.width < reserved ∧
      (f.prec = none → ∀ s, arg = .str s → (s.takeWhile (· ≠ 0)).length < reserved)

/-- The argument is of the type that the directive is about. -/
def Conversion.Takes (c : Conversion) : VaArg → Prop
  | .str s => c.type = byte 's' ∧ 0 ∈ s
  | .int _ => c.type ∈ cstr "cduoxX" ∧ c.longFlag = false
  | .long _ => c.type ∈ cstr "cduoxX" ∧ c.longFlag = true
  | .ptr _ => c.type = byte 'p'
  | .double _ => False

section

variable {libc : Libc} {d : Directive} {ap rest rest' : List VaArg} {text : Bytes} {width prec : ℤ}
  {type : BitVec 8}

theorem vaStr_ok {s : Bytes} (h : vaStr ap = .ok (s, rest)) : ap = .str s :: rest := by
  unfold vaStr at h
  split at h
  · obtain ⟨rfl, rfl⟩ := Prod.mk.inj (Except.ok.inj h)
    rfl
  · cases h

/-- A call that comes of a directive for strings, numbers or addresses. -/
theorem Conversion.piece_call {c : Conversion} {text' : Bytes} {reserved : ℕ} {arg : VaArg}
    (htype : c.type ∈ cstr "scduoxXp") (hstr : ∀ s tl, ap = .str s :: tl → 0 ∈ s)
    (h : c.piece libc text ap = .ok (.call text' reserved arg, rest)) :
    text' = text ∧ reserved = c.reserved 32 ∧ c.Takes arg := by
  rw [Conversion.piece] at h
  split at h
  · rename_i hs
    obtain ⟨⟨s, ap'⟩, hva, h⟩ := bind_ok_iff.1 h
    obtain ⟨slow, hslow, h⟩ := bind_ok_iff.1 h
    cases slow with
    | true =>
      obtain ⟨⟨rfl, rfl, rfl⟩, -⟩ : (_ ∧ _ ∧ _) ∧ _ := by simpa using Except.ok.inj h
      exact ⟨rfl, rfl, hs, hstr s ap' (vaStr_ok hva)⟩
    | false =>
      simp only [Bool.false_eq_true, if_false] at h
      split at h
      · exact absurd (Except.ok.inj h) (by simp)
      · cases h
  rename_i hs
  split at h
  · rename_i hint
    split at h
    · rename_i hlong
      obtain ⟨⟨n, ap'⟩, -, h⟩ := bind_ok_iff.1 h
      obtain ⟨⟨rfl, rfl, rfl⟩, -⟩ : (_ ∧ _ ∧ _) ∧ _ := by simpa using Except.ok.inj h
      exact ⟨rfl, rfl, hint, hlong⟩
    · rename_i hlong
      obtain ⟨⟨n, ap'⟩, -, h⟩ := bind_ok_iff.1 h
      obtain ⟨⟨rfl, rfl, rfl⟩, -⟩ : (_ ∧ _ ∧ _) ∧ _ := by simpa using Except.ok.inj h
      exact ⟨rfl, rfl, hint, Bool.eq_false_iff.2 hlong⟩
  rename_i hint
  split at h
  · rename_i hfloat
    have hno : ∀ ch ∈ cstr "efg", ch ∉ cstr "scduoxXp" := by decide
    exact absurd htype (hno _ hfloat)
  split at h
  · exact absurd (Except.ok.inj h) (by simp)
  split at h
  · rename_i hp
    obtain ⟨⟨n, ap'⟩, -, h⟩ := bind_ok_iff.1 h
    obtain ⟨⟨rfl, rfl, rfl⟩, -⟩ : (_ ∧ _ ∧ _) ∧ _ := by simpa using Except.ok.inj h
    exact ⟨rfl, rfl, hp⟩
  · cases h

/-- A string fits if the field does, and the string itself where it is not cut. -/
theorem FormatSpec.output_str_fits_iff {f : FormatSpec} {s : Bytes} {n : ℕ}
    (hconv : f.conv = byte 's') (h0 : 0 ∈ s) (hprec : ∀ q, f.prec = some q → q < n) :
    (∃ out, f.output (.str s) = some out ∧ out.length < n) ↔
      f.width < n ∧ (f.prec = none → (s.takeWhile (· ≠ 0)).length < n) := by
  obtain ⟨cut, hcut, hfits⟩ : ∃ cut, f.cut s = some cut ∧
      (cut.length < n ↔ (f.prec = none → (s.takeWhile (· ≠ 0)).length < n)) := by
    cases hq : f.prec with
    | none => exact ⟨_, f.cut_none hq h0, ⟨fun h _ => h, fun h => h rfl⟩⟩
    | some q =>
      have hlen : (strPrefix s q).length ≤ q :=
        (List.takeWhile_sublist _).length_le.trans (List.length_take_le _ _)
      refine ⟨_, f.cut_some hq h0, ⟨fun _ hno => ?_, fun _ => hlen.trans_lt (hprec q hq)⟩⟩
      cases hno
  have houtput : f.output (.str s) = some (f.field cut) := by
    rw [FormatSpec.output, if_pos hconv, hcut]
    rfl
  rw [houtput, ← hfits]
  constructor
  · rintro ⟨out, hout, hlt⟩
    obtain rfl := Option.some.inj hout
    rw [f.field_length] at hlt
    omega
  · intro h
    refine ⟨_, rfl, ?_⟩
    rw [f.field_length]
    omega

/-- A number or an address is printed for a directive that is about one. -/
theorem Conversion.Takes.exists_output {c : Conversion} {arg : VaArg} {f : FormatSpec}
    (htakes : c.Takes arg) (harg : ∀ s, arg ≠ .str s) (hconv : f.conv = c.type)
    (hlong : f.long = c.longFlag) (hok : f.long → f.conv ∈ cstr "duoxX") :
    ∃ out, f.output arg = some out := by
  cases arg with
  | str s => exact absurd rfl (harg s)
  | double x => exact htakes.elim
  | int n =>
    rw [FormatSpec.output, if_neg (Bool.eq_false_iff.1 (hlong.trans htakes.2))]
    split
    · exact ⟨_, rfl⟩
    · rename_i hc
      have hcstr : ∀ ch ∈ cstr "cduoxX", ch ≠ byte 'c' → ch ∈ cstr "duoxX" := by decide
      exact f.exists_number (hcstr _ (hconv ▸ htakes.1) hc) _ _
  | long n =>
    have hfl : f.long = true := hlong.trans htakes.2
    rw [FormatSpec.output, if_pos hfl]
    exact f.exists_number (hok hfl) _ _
  | ptr p =>
    rw [FormatSpec.output, if_pos (hconv.trans htakes)]
    exact ⟨_, rfl⟩

/-- What a call prints fits the space if the directive is bounded. -/
theorem Conversion.fits_iff {reserved : ℕ} {arg : VaArg} {text' : Bytes}
    (hd : d.assemble ap = .ok (text, width, prec, rest)) (htype : type ∈ cstr "scduoxXp")
    (hstr : ∀ s tl, rest = .str s :: tl → 0 ∈ s)
    (hp : Conversion.piece libc (text ++ [type]) ⟨type, width, prec, d.long⟩ rest =
      .ok (.call text' reserved arg, rest')) :
    (Piece.call text' reserved arg).Fits libc ↔ (Piece.call text' reserved arg).Bounded := by
  obtain ⟨rfl, rfl, htakes⟩ := Conversion.piece_call htype hstr hp
  obtain ⟨hw0, hw, hp0, hprec⟩ := d.assemble_range hd
  have hreserved := Directive.reserved_eq hd type
  generalize Conversion.reserved ⟨type, width, prec, d.long⟩ 32 = reserved at hreserved
  have hsprintf : libc.sprintf (text ++ [type]) arg =
      (formatSpec (text ++ [type])).bind (·.output arg) := by
    cases arg with
    | double x => exact htakes.elim
    | _ => rfl
  have hfits : (Piece.call (text ++ [type]) reserved arg).Fits libc ↔
      ∃ f, formatSpec (text ++ [type]) = some f ∧
        ∃ out, f.output arg = some out ∧ out.length < reserved := by
    simp only [Piece.Fits, hsprintf, Option.bind_eq_some_iff]
    constructor
    · rintro ⟨out, ⟨f, hf, hout⟩, hlt⟩
      exact ⟨f, hf, out, hout, hlt⟩
    · rintro ⟨f, hf, out, hout, hlt⟩
      exact ⟨out, ⟨f, hf, hout⟩, hlt⟩
  rw [hfits, Piece.Bounded]
  refine exists_congr fun f => and_congr_right fun hf => ?_
  obtain ⟨hconv, hlong, hread⟩ := formatSpec_assemble hd hf
  have hq : ∀ q, f.prec = some q → q + 32 ≤ reserved := by
    intro q hq
    have := hread q hq
    omega
  by_cases harg : ∃ s, arg = .str s
  · obtain ⟨s, rfl⟩ := harg
    rw [f.output_str_fits_iff (hconv.trans htakes.1) htakes.2 fun q hf => by have := hq q hf; omega]
    refine and_congr_right fun _ => forall_congr' fun _ => ⟨fun h s' hs' => ?_, fun h => h s rfl⟩
    exact VaArg.str.inj hs' ▸ h
  · have harg' : ∀ s, arg ≠ .str s := fun s hs => harg ⟨s, hs⟩
    have hdefault : f.prec.getD 1 + 24 < reserved := by
      cases hp : f.prec with
      | none =>
        rw [Option.getD_none]
        omega
      | some q =>
        have := hq q hp
        rw [Option.getD_some]
        omega
    constructor
    · rintro ⟨out, hout, hlt⟩
      obtain ⟨n, -, hlen⟩ := f.output_length hout harg'
      exact ⟨by omega, fun _ s hs => absurd hs (harg' s)⟩
    · rintro ⟨hlt, -⟩
      obtain ⟨-, -, -, -, -, -, -, -, -, -, -, hok⟩ := formatSpec_some hf
      obtain ⟨out, hout⟩ := htakes.exists_output harg' hconv hlong hok
      obtain ⟨n, hn, hlen⟩ := f.output_length hout harg'
      exact ⟨out, hout, by omega⟩

end

/-! ## The calls of a format -/

section

variable {libc : Libc} {ap rest : List VaArg}

/-- An argument is taken off the front. -/
theorem va_suffix : (∀ n, vaInt ap = .ok (n, rest) → rest <:+ ap) ∧
    (∀ n, vaLong ap = .ok (n, rest) → rest <:+ ap) ∧
    (∀ x, vaDouble ap = .ok (x, rest) → rest <:+ ap) ∧
    (∀ s, vaStr ap = .ok (s, rest) → rest <:+ ap) ∧
    ∀ p, vaPtr ap = .ok (p, rest) → rest <:+ ap := by
  have htail : ∀ {α : Type} {x y : α} {arg : VaArg} {ap : List VaArg},
      (pure (x, ap) : Except Fault (α × List VaArg)) = .ok (y, rest) → rest <:+ arg :: ap := by
    intro α x y arg ap h
    obtain ⟨-, rfl⟩ := Prod.mk.inj (Except.ok.inj h)
    exact List.suffix_cons _ _
  refine ⟨?_, ?_, ?_, ?_, ?_⟩
  all_goals
    intro x h
    rcases ap with _ | ⟨arg, ap⟩
    · cases h
    · cases arg <;> first | exact htail h | cases h

theorem NumPart.take_suffix {part : NumPart} {bytes : Bytes} {v : ℤ}
    (h : part.take ap = .ok (bytes, v, rest)) : rest <:+ ap := by
  cases part with
  | lit digits =>
    obtain ⟨-, -, rfl⟩ : _ ∧ _ ∧ ap = rest := by simpa using Except.ok.inj h
    exact List.suffix_rfl
  | star =>
    obtain ⟨⟨n, ap'⟩, hn, h⟩ := bind_ok_iff.1 h
    obtain ⟨-, -, rfl⟩ : _ ∧ _ ∧ ap' = rest := by simpa using Except.ok.inj h
    exact va_suffix.1 n hn

theorem Directive.assemble_suffix {d : Directive} {text : Bytes} {width prec : ℤ}
    (h : d.assemble ap = .ok (text, width, prec, rest)) : rest <:+ ap := by
  obtain ⟨⟨w, wv, ap₁⟩, hw, h⟩ := bind_ok_iff.1 h
  obtain ⟨⟨p, pv, ap₂⟩, hp, h⟩ := bind_ok_iff.1 h
  obtain ⟨-, -, -, rfl⟩ : _ ∧ _ ∧ _ ∧ ap₂ = rest := by simpa using Except.ok.inj h
  exact (NumPart.take_suffix hp).trans (NumPart.take_suffix hw)

theorem Conversion.piece_suffix {c : Conversion} {text : Bytes} {p : Piece}
    (h : c.piece libc text ap = .ok (p, rest)) : rest <:+ ap := by
  obtain ⟨hint, hlong, hdouble, hstr, hptr⟩ := @va_suffix ap rest
  rw [Conversion.piece] at h
  split at h
  · obtain ⟨⟨s, ap'⟩, hva, h⟩ := bind_ok_iff.1 h
    obtain ⟨slow, -, h⟩ := bind_ok_iff.1 h
    split at h
    · obtain ⟨-, rfl⟩ := Prod.mk.inj (Except.ok.inj h)
      exact hstr s hva
    · split at h
      · obtain ⟨-, rfl⟩ := Prod.mk.inj (Except.ok.inj h)
        exact hstr s hva
      · cases h
  split at h
  · split at h
    · obtain ⟨⟨n, ap'⟩, hva, h⟩ := bind_ok_iff.1 h
      obtain ⟨-, rfl⟩ := Prod.mk.inj (Except.ok.inj h)
      exact hlong n hva
    · obtain ⟨⟨n, ap'⟩, hva, h⟩ := bind_ok_iff.1 h
      obtain ⟨-, rfl⟩ := Prod.mk.inj (Except.ok.inj h)
      exact hint n hva
  split at h
  · obtain ⟨⟨x, ap'⟩, hva, h⟩ := bind_ok_iff.1 h
    obtain ⟨-, rfl⟩ := Prod.mk.inj (Except.ok.inj h)
    exact hdouble x hva
  split at h
  · obtain ⟨-, rfl⟩ := Prod.mk.inj (Except.ok.inj h)
    exact List.suffix_rfl
  split at h
  · obtain ⟨⟨q, ap'⟩, hva, h⟩ := bind_ok_iff.1 h
    obtain ⟨-, rfl⟩ := Prod.mk.inj (Except.ok.inj h)
    exact hptr q hva
  · cases h

theorem Item.piece_suffix {item : Item} {p : Piece} (h : item.piece libc ap = .ok (p, rest)) :
    rest <:+ ap := by
  cases item with
  | char c hc =>
    obtain ⟨-, rfl⟩ := Prod.mk.inj (Except.ok.inj h)
    exact List.suffix_rfl
  | percent =>
    obtain ⟨-, rfl⟩ := Prod.mk.inj (Except.ok.inj h)
    exact List.suffix_rfl
  | directive d type =>
    obtain ⟨⟨text, width, prec, ap'⟩, hd, h⟩ := bind_ok_iff.1 h
    exact (Conversion.piece_suffix h).trans (d.assemble_suffix hd)
  | tail d =>
    obtain ⟨⟨text, width, prec, ap'⟩, hd, h⟩ := bind_ok_iff.1 h
    obtain ⟨-, rfl⟩ := Prod.mk.inj (Except.ok.inj h)
    exact d.assemble_suffix hd

/-- All calls of a format fit if their directives are bounded. -/
theorem pieces_fits_iff {is : List Item} {ps : List Piece}
    (htypes : ∀ d type, Item.directive d type ∈ is → type ∈ cstr "scduoxXp")
    (hstr : ∀ s, VaArg.str s ∈ ap → 0 ∈ s) (hps : pieces libc is ap = .ok (ps, rest)) :
    (∀ p ∈ ps, p.Fits libc) ↔ ∀ p ∈ ps, p.Bounded := by
  induction is generalizing ap ps with
  | nil =>
    obtain ⟨rfl, -⟩ := Prod.mk.inj (Except.ok.inj hps)
    exact ⟨fun _ p hp => absurd hp List.not_mem_nil, fun _ p hp => absurd hp List.not_mem_nil⟩
  | cons item is ih =>
    obtain ⟨⟨p, ap₁⟩, hp, hps⟩ := bind_ok_iff.1 hps
    obtain ⟨⟨qs, ap₂⟩, hqs, hps⟩ := bind_ok_iff.1 hps
    obtain ⟨rfl, rfl⟩ := Prod.mk.inj (Except.ok.inj hps)
    have hone : p.Fits libc ↔ p.Bounded := by
      cases p with
      | copy s => exact Iff.rfl
      | call text reserved arg =>
        cases item with
        | directive d type =>
          obtain ⟨⟨t, width, prec, ap'⟩, hd, hp⟩ := bind_ok_iff.1 hp
          refine Conversion.fits_iff hd (htypes d type List.mem_cons_self) (fun s tl hs => ?_) hp
          exact hstr s ((d.assemble_suffix hd).subset (hs ▸ List.mem_cons_self))
        | char c hc => exact absurd (Except.ok.inj hp) (by simp)
        | percent => exact absurd (Except.ok.inj hp) (by simp)
        | tail d =>
          obtain ⟨r, -, hp⟩ := bind_ok_iff.1 hp
          exact absurd (Except.ok.inj hp) (by simp)
    have hrest := ih (fun d type hm => htypes d type (List.mem_cons_of_mem _ hm))
      (fun s hs => hstr s ((Item.piece_suffix hp).subset hs)) hqs
    rw [List.forall_mem_cons, List.forall_mem_cons, hone, hrest]

end

/-! ## A buffer with no more space than requested -/

/-- A callback that makes room for one byte. -/
def tightPutReady : VbufFn Unit := fun b =>
  pure (false, ⟨{ b.bp with data := b.written ++ [0], cnt := 1 }, ()⟩)

/-- A callback that makes room for just as many bytes as are requested. -/
def tightSpace : SpaceFn Unit := fun b n =>
  pure (false, ⟨{ b.bp with data := b.written ++ List.replicate n 0, cnt := n }, ()⟩)

/-- The block of a buffer ends where the count says. -/
def Tight (b : VbufEnv Unit) : Prop := b.bp.ptr + b.bp.cnt = b.bp.data.length

theorem tight_printReady :
    PrintReady (fun _ => False) False tightPutReady tightSpace Tight where
  room b hb := hb
  store b hb bytes hlen := by
    have hdata := @Vbuf.stored_data_length b.bp bytes (by unfold Tight at hb; omega)
    unfold Tight at hb ⊢
    simp only [Vbuf.stored] at hdata ⊢
    omega
  behind b hb bytes hlen := by
    unfold Tight at hb ⊢
    rw [Vbuf.stored_data_length (by omega)]
    exact hb
  put b hb hcnt := by
    unfold Tight at hb
    have hptr : b.written.length = b.bp.ptr := by
      rw [VbufEnv.written, List.length_take]
      omega
    refine .of_eq rfl ⟨?_, List.take_left' hptr, Nat.one_pos⟩
    unfold Tight
    rw [List.length_append, hptr]
    rfl
  space b hb n := by
    unfold Tight at hb
    have hptr : b.written.length = b.bp.ptr := by
      rw [VbufEnv.written, List.length_take]
      omega
    refine .of_eq rfl ⟨?_, List.take_left' hptr, fun hf => by cases hf⟩
    unfold Tight
    rw [List.length_append, List.length_replicate, hptr]

theorem tight_guarantees : Guarantees tightSpace Tight := by
  intro b hb n b' h
  obtain ⟨-, rfl⟩ := Prod.mk.inj (Except.ok.inj h)
  exact le_rfl

section

variable {libc : Libc} {b : VbufEnv Unit} {ap rest : List VaArg}

/-- A call that does not fit goes outside the block. -/
theorem execItems_tight {is : List Item} {ps : List Piece} (hb : Tight b)
    (hps : pieces libc is ap = .ok (ps, rest)) (hno : ∃ p ∈ ps, ¬p.Fits libc) :
    execItems libc tightPutReady tightSpace is b ap = .error .outside := by
  induction is generalizing b ap ps with
  | nil =>
    obtain ⟨rfl, -⟩ := Prod.mk.inj (Except.ok.inj hps)
    obtain ⟨p, hp, -⟩ := hno
    exact absurd hp List.not_mem_nil
  | cons item is ih =>
    obtain ⟨⟨p, ap₁⟩, hp, hps⟩ := bind_ok_iff.1 hps
    obtain ⟨⟨qs, ap₂⟩, hqs, hps⟩ := bind_ok_iff.1 hps
    obtain ⟨rfl, rfl⟩ := Prod.mk.inj (Except.ok.inj hps)
    obtain ⟨ap', hexec⟩ := @Item.exec_piece _ _ tightPutReady tightSpace b _ _ _ _ hp
    rw [execItems, hexec, bind_assoc]
    by_cases hfits : p.Fits libc
    · have hrest : ∃ q ∈ qs, ¬q.Fits libc := by
        obtain ⟨q, hq, hqno⟩ := hno
        refine ⟨q, (List.mem_cons.1 hq).resolve_left ?_, hqno⟩
        rintro rfl
        exact hqno hfits
      have hyields := Piece.exec_yields tight_printReady tight_guarantees hb hfits
      cases hpiece : p.exec libc tightPutReady tightSpace b with
      | error e => exact (hyields.error e hpiece).elim
      | ok r =>
        obtain ⟨hb', hfail⟩ := hyields.ok r hpiece
        obtain ⟨failed, b'⟩ := r
        cases failed with
        | true => exact (hfail rfl).elim
        | false => exact ih hb' hqs hrest
    · cases p with
      | copy s => exact absurd trivial hfits
      | call text reserved arg =>
        obtain ⟨hb', -, -⟩ := (tight_printReady.space b hb reserved).ok _ rfl
        have hskip := @PrintReady.sprintfSkip_error _ _ _ _ _ _ _ tight_printReady hb' libc text arg
          fun out hout => Nat.le_of_not_lt fun hlt => hfits ⟨out, hout, hlt⟩
        refine bind_error_iff.2 (.inl (bind_error_iff.2 (.inr ⟨_, rfl, ?_⟩)))
        exact bind_error_iff.2 (.inl hskip)

/-- The run on that buffer, without a panic if the format is not very long. -/
theorem vbufPrint_tight {s : Bytes} {ps : List Piece} (h0 : 0 ∉ s) (hlen : s.length < 2 ^ 29)
    (hb : Tight b) (hps : pieces libc (items s) ap = .ok (ps, rest)) :
    (∀ p ∈ ps, p.Fits libc) ∧
        (∃ st, vbufPrint libc tightPutReady tightSpace none b (s ++ [0]) ap = .ok st) ∨
      ¬(∀ p ∈ ps, p.Fits libc) ∧
        vbufPrint libc tightPutReady tightSpace none b (s ++ [0]) ap = .error .outside := by
  have hfollows := @vbufPrint_follows _ libc tightPutReady tightSpace s none
    (fun vp h => by cases h) h0 b [] ap
  by_cases hfits : ∀ p ∈ ps, p.Fits libc
  · refine .inl ⟨hfits, ?_⟩
    have hyields := execItems_yields tight_printReady tight_guarantees hb hps hfits
    cases hrun : vbufPrint libc tightPutReady tightSpace none b (s ++ [0]) ap with
    | ok st => exact ⟨st, rfl⟩
    | error e =>
      rcases hfollows.error e hrun with hlong | he
      · exact absurd hlong.2 (Nat.not_le.2 hlen)
      · exact (hyields.error e he).elim
  · refine .inr ⟨hfits, ?_⟩
    have herr := execItems_tight hb hps (by simpa using hfits)
    cases hrun : vbufPrint libc tightPutReady tightSpace none b (s ++ [0]) ap with
    | ok st =>
      obtain ⟨r, hr, -⟩ := hfollows.ok st hrun
      cases herr.symm.trans hr
    | error e =>
      rcases hfollows.error e hrun with hlong | he
      · exact absurd hlong.2 (Nat.not_le.2 hlen)
      · exact congrArg Except.error (Except.error.inj (he.symm.trans herr))

end

/-! ## No output outside the space -/

section

variable {libc : Libc} {s : Bytes} {ap rest : List VaArg} {ps : List Piece}

/-- Whatever the buffer, nothing is printed outside the space that its callback makes. -/
def StaysInside (libc : Libc) (s : Bytes) (ap : List VaArg) : Prop :=
  ∀ (σ : Type) (put : VbufFn σ) (space : SpaceFn σ) (I : VbufEnv σ → Prop),
    PrintReady IsPanic True put space I → Guarantees space I →
    ∀ (fmt : Option Vbuf) (b : VbufEnv σ) (junk : Bytes), (∀ vp ∈ fmt, vp.Sound) → I b →
      vbufPrint libc put space fmt b (s ++ 0 :: junk) ap ≠ .error .outside

theorem PrintReady.weaken {σ : Type} {lost lost' : Fault → Prop} {mayFail mayFail' : Prop}
    {put : VbufFn σ} {space : SpaceFn σ} {I : VbufEnv σ → Prop}
    (h : PrintReady lost mayFail put space I) (hlost : ∀ e, lost e → lost' e)
    (hfail : mayFail → mayFail') : PrintReady lost' mayFail' put space I where
  room := h.room
  store := h.store
  behind := h.behind
  put b hb hcnt := ((h.put b hb hcnt).weaken hlost).mono fun r ⟨hr, hkept, hr'⟩ => by
    refine ⟨hr, hkept, ?_⟩
    split at hr'
    · rename_i hf
      rw [if_pos hf]
      exact hfail hr'
    · rename_i hf
      rwa [if_neg hf]
  space b hb n := ((h.space b hb n).weaken hlost).mono fun r ⟨hr, hkept, hr'⟩ =>
    ⟨hr, hkept, fun hf => hfail (hr' hf)⟩

/-- Each call of `sprintf` fits the space that is requested for it if and only if its directive is
bounded. If so, no run goes outside the space that the callback makes, and otherwise a run does. -/
theorem staysInside_iff (h0 : 0 ∉ s)
    (htypes : ∀ d type, Item.directive d type ∈ items s → type ∈ cstr "scduoxXp")
    (hps : pieces libc (items s) ap = .ok (ps, rest)) (hstr : ∀ t, VaArg.str t ∈ ap → 0 ∈ t) :
    ((∀ p ∈ ps, p.Fits libc) ↔ ∀ p ∈ ps, p.Bounded) ∧
      ((∀ p ∈ ps, p.Bounded) → StaysInside libc s ap) ∧
      (s.length < 2 ^ 29 → StaysInside libc s ap → ∀ p ∈ ps, p.Bounded) := by
  have hiff := pieces_fits_iff htypes hstr hps
  refine ⟨hiff, fun hbounded σ put space I hI hspace fmt b junk hfmt hb hout => ?_, ?_⟩
  · rcases (vbufPrint_follows hfmt h0 b junk ap).error _ hout with hlong | he
    · obtain ⟨⟨p, hp⟩, -⟩ := hlong
      cases hp
    · obtain ⟨p, hp⟩ := (execItems_yields hI hspace hb hps (hiff.2 hbounded)).error _ he
      cases hp
  · intro hlen hinside
    have hb : Tight ⟨⟨[], 0, 0, 0⟩, ()⟩ := rfl
    have hI : PrintReady IsPanic True tightPutReady tightSpace Tight :=
      tight_printReady.weaken (fun _ h => h.elim) False.elim
    rcases vbufPrint_tight h0 hlen hb hps with ⟨hfits, -⟩ | ⟨-, hout⟩
    · exact hiff.1 hfits
    · exact absurd hout
        (hinside Unit _ _ _ hI tight_guarantees none _ [] (fun vp h => by cases h) hb)

end

/-- A number fits the space, with a width that is. -/
theorem staysInside_iff_five :
    pieces ⟨fun _ _ => none, []⟩ (items (cstr "n=%*d")) [.int 5, .int 7] =
        .ok ([.copy (cstr "n"), .copy (cstr "="), .call (cstr "%5d") 37 (.int 7)], []) ∧
      StaysInside ⟨fun _ _ => none, []⟩ (cstr "n=%*d") [.int 5, .int 7] := by
  have hps : pieces ⟨fun _ _ => none, []⟩ (items (cstr "n=%*d")) [.int 5, .int 7] =
      .ok ([.copy (cstr "n"), .copy (cstr "="), .call (cstr "%5d") 37 (.int 7)], []) :=
    toOption_eq_some (by decide +kernel)
  have htypes : ∀ d type, Item.directive d type ∈ items (cstr "n=%*d") →
      type ∈ cstr "scduoxXp" := by
    have hitems : items (cstr "n=%*d") =
        [.char (byte 'n') (by decide), .char (byte '=') (by decide),
        .directive ⟨false, false, false, .star, false, .lit ⟨[], by simp⟩, false⟩ (byte 'd')] := by
      decide +kernel
    intro d type hm
    rw [hitems] at hm
    simp only [List.mem_cons, List.not_mem_nil, reduceCtorEq, false_or, or_false,
      Item.directive.injEq] at hm
    exact hm.2 ▸ by decide
  refine ⟨hps, (staysInside_iff (by decide) htypes hps (by simp)).2.1 ?_⟩
  have hspec : formatSpec (cstr "%5d") =
      some ⟨false, false, false, 5, none, false, byte 'd'⟩ := by
    decide +kernel
  simp only [List.forall_mem_cons, Piece.Bounded, true_and]
  exact ⟨⟨_, hspec, by decide, fun _ s hs => by cases hs⟩, fun p hp => absurd hp List.not_mem_nil⟩

/-- A negative width from the arguments is a width for `sprintf`, but not for the request. -/
theorem not_staysInside :
    pieces ⟨fun _ _ => none, []⟩ (items (cstr "%*d")) [.int (-100), .int 5] =
        .ok ([.call (cstr "%-100d") 32 (.int 5)], []) ∧
      (sprintf (cstr "%-100d") (.int 5)).map List.length = some 100 ∧
      ¬StaysInside ⟨fun _ _ => none, []⟩ (cstr "%*d") [.int (-100), .int 5] := by
  have hps : pieces ⟨fun _ _ => none, []⟩ (items (cstr "%*d")) [.int (-100), .int 5] =
      .ok ([.call (cstr "%-100d") 32 (.int 5)], []) :=
    toOption_eq_some (by decide +kernel)
  have hlen : (sprintf (cstr "%-100d") (.int 5)).map List.length = some 100 := by
    decide +kernel
  refine ⟨hps, hlen, fun hinside => ?_⟩
  have hb : Tight ⟨⟨[], 0, 0, 0⟩, ()⟩ := rfl
  have hI : PrintReady IsPanic True tightPutReady tightSpace Tight :=
    tight_printReady.weaken (fun _ h => h.elim) False.elim
  rcases vbufPrint_tight (by decide) (by decide) hb hps with ⟨hfits, -⟩ | ⟨-, hout⟩
  · obtain ⟨out, hout, hlt⟩ := hfits _ List.mem_cons_self
    have hout' : sprintf (cstr "%-100d") (.int 5) = some out := hout
    rw [hout', Option.map_some, Option.some.injEq] at hlen
    omega
  · exact hinside Unit _ _ _ hI tight_guarantees none _ [] (fun vp h => by cases h) hb hout

end Nowra
