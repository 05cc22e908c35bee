import Nowra.Follows
import Nowra.Print

/-!
# The directives of a format

`vbuf_print` takes a format apart while it prints it. `items` says what the parts of a format are :
bytes, `%%`, directives, and a directive that the format ends in. They make up the whole format
(`items_text`).

The loop prints the parts from left to right, and stops at the null byte, wherever the format ends
(`vbufPrintLoop_follows`). A directive comes to its conversion with its own text, where the decimal
form of an argument takes the place of each star (`scanDirective_follows`). The string for
directives grows, so the process may panic before that, if the format is very long (`TooLong`).
-/

namespace Nowra

/-! ## Decimal numbers -/

theorem fmtInt_natCast (n : ℕ) : fmtInt n = digitsOf 10 n := by
  have htext : toString (n : ℤ) = n.repr := rfl
  rw [fmtInt, htext, cstr, Nat.toList_repr]
  rfl

theorem fmtInt_neg {n : ℕ} (hn : 0 < n) : fmtInt (-n) = byte '-' :: digitsOf 10 n := by
  obtain ⟨n, rfl⟩ := Nat.exists_eq_succ_of_ne_zero hn.ne'
  have htext : toString (-(n.succ : ℤ)) = "-" ++ n.succ.repr := rfl
  rw [fmtInt, htext, cstr, String.toList_append, List.map_append, Nat.toList_repr]
  rfl

theorem fmtInt_cases (i : ℤ) : (∃ n : ℕ, i = n ∧ fmtInt i = digitsOf 10 n) ∨
    ∃ n : ℕ, i = -n ∧ fmtInt i = byte '-' :: digitsOf 10 n := by
  rcases lt_or_ge i 0 with hneg | hpos
  · obtain ⟨n, hn⟩ := Int.eq_ofNat_of_zero_le (show 0 ≤ -i by omega)
    obtain rfl : i = -n := by omega
    exact .inr ⟨n, rfl, fmtInt_neg (by omega)⟩
  · obtain ⟨n, rfl⟩ := Int.eq_ofNat_of_zero_le hpos
    exact .inl ⟨n, rfl, fmtInt_natCast n⟩

/-- Digits are digits. -/
theorem isDigit_of_mem {n : ℕ} {c : BitVec 8} (hc : c ∈ digitsOf 10 n) : isDigit c := by
  obtain ⟨d, hd, rfl⟩ := List.mem_map.1 hc
  have hdigit := Nat.isDigit_of_mem_toDigits (by decide) (by decide) hd
  rw [Char.isDigit, Bool.and_eq_true, decide_eq_true_eq, decide_eq_true_eq] at hdigit
  have hlow : 48 ≤ d.toNat := UInt32.le_iff_toNat_le.1 hdigit.1
  have hhigh : d.toNat ≤ 57 := UInt32.le_iff_toNat_le.1 hdigit.2
  rw [isDigit, decide_eq_true_eq, byte, BitVec.le_def, BitVec.le_def, BitVec.toNat_ofNat,
    BitVec.toNat_ofNat, BitVec.toNat_ofNat]
  omega

theorem digitsValue_digitsOf (n : ℕ) : digitsValue (digitsOf 10 n) = n := by
  have hfold : ∀ (l : List Char), (∀ c ∈ l, c.toNat < 256) → ∀ m,
      (l.map byte).foldl (fun n c => 10 * n + (c.toNat - 48)) m = Nat.ofDigitChars 10 l m := by
    intro l hl
    induction l with
    | nil => exact fun m => rfl
    | cons c l ih =>
      intro m
      have hc : (byte c).toNat = c.toNat := by
        rw [byte, BitVec.toNat_ofNat]
        exact Nat.mod_eq_of_lt (hl c List.mem_cons_self)
      rw [List.map_cons, List.foldl_cons, hc, Nat.ofDigitChars_cons,
        ih fun d hd => hl d (List.mem_cons_of_mem _ hd)]
      rfl
  rw [digitsValue, digitsOf, hfold _ ?_ 0, Nat.ofDigitChars_ten_toDigits]
  intro c hc
  have hdigit := Nat.isDigit_of_mem_toDigits (by decide) (by decide) hc
  rw [Char.isDigit, Bool.and_eq_true, decide_eq_true_eq, decide_eq_true_eq] at hdigit
  have hhigh : c.toNat ≤ 57 := UInt32.le_iff_toNat_le.1 hdigit.2
  omega

/-- The decimal form of an `int` fits the space reserved for it, and has no null byte. -/
theorem fmtInt_length (n : BitVec 32) :
    (fmtInt n.toInt).length < intSpace ∧ 0 ∉ fmtInt n.toInt := by
  have hle := n.le_toInt
  have hlt := BitVec.toInt_lt (x := n)
  have hdigits : ∀ k : ℕ, k < 10 ^ 10 → (digitsOf 10 k).length ≤ 10 := fun k hk =>
    digitsOf_length (by decide) (by decide) hk
  have hnull : ∀ k : ℕ, 0 ∉ digitsOf 10 k := fun k hk => absurd (isDigit_of_mem hk) (by decide)
  rcases fmtInt_cases n.toInt with ⟨k, hk, hfmt⟩ | ⟨k, hk, hfmt⟩
  · rw [hfmt]
    have := hdigits k (by omega)
    exact ⟨by unfold intSpace; omega, hnull k⟩
  · rw [hfmt, List.length_cons]
    have := hdigits k (by omega)
    exact ⟨by unfold intSpace; omega, fun hm => (List.mem_cons.1 hm).elim (by decide) (hnull k)⟩

/-! ## Strings that grow or panic -/

/-- The process ends with a message. -/
def IsPanic (e : Fault) : Prop := ∃ p, e = .panic p

/-- The process ends with a message, for a format of `n` bytes that is very long. -/
def TooLong (n : ℕ) (e : Fault) : Prop := IsPanic e ∧ 2 ^ 29 ≤ n

namespace Vbuf

variable {vp : Vbuf} {s : Bytes} {n : ℕ}

theorem Holds.extend_yields (h : vp.Holds s) {incr : ℕ} (hincr : incr < 2 ^ 31)
    (hn : vp.len + max vp.len incr < 2 ^ 31 ∨ 2 ^ 29 ≤ n) :
    Yields (TooLong n) (vstringExtend vp incr) fun vp' =>
      vp'.Holds s ∧ vp'.len = vp.len + max vp.len incr := by
  rcases h.extend_or hincr with ⟨-, vp', hext, hh⟩ | ⟨hge, p, hp⟩
  · exact .of_eq hext hh
  · exact .of_error hp ⟨⟨p, rfl⟩, hn.resolve_left hge.not_gt⟩

theorem Holds.addch_yields (h : vp.Holds s) (c : BitVec 8) (hn : s.length ≤ n + 96) :
    Yields (TooLong n) (vstringAddch vp c) fun vp' => vp'.Holds (s ++ [c]) := by
  have put (turns : ℕ) {vp : Vbuf} (h : vp.Holds s) (hcnt : 0 < vp.cnt) :
      Yields (TooLong n) (vbufPut turns vp c) fun vp' => vp'.Holds (s ++ [c]) := by
    obtain ⟨data, hst, hlen, htake⟩ := h.store [c] hcnt
    unfold vbufPut
    rw [if_pos hcnt, hst]
    exact .of_eq rfl (h.advance [c] hcnt hlen htake)
  rcases Nat.eq_zero_or_pos vp.cnt with hcnt | hcnt
  · have hroom := h.room
    have hpos := h.pos
    have hused := h.used
    rw [vstringAddch, vbufPut, if_neg (by omega)]
    refine (h.extend_yields (show 0 < 2 ^ 31 by decide) (by omega)).bind fun vp' hextend => ?_
    obtain ⟨hh, hlen⟩ := hextend
    refine put 31 hh ?_
    have hroom' := hh.room
    have hused := hh.used.trans h.used.symm
    omega
  · exact put 32 h hcnt

/-- A request for a few bytes gets them. -/
theorem Holds.space_yields (h : vp.Holds s) {len : ℕ} (hlen : len ≤ intSpace)
    (hn : s.length ≤ n + 96) :
    Yields (TooLong n) (vstringBufSpace vp len) fun vp' => vp'.Holds s ∧ len ≤ vp'.cnt := by
  have hroom := h.room
  have hsmall := h.small
  have hused := h.used
  unfold intSpace at hlen
  have hincr : ((len : ℤ) - vp.cnt) % 2 ^ 32 = (((len : ℤ) - vp.cnt) % 2 ^ 32).toNat := by omega
  rcases h.space_or len hincr with ⟨hno, hok⟩ | ⟨hpos, -, -, vp', hok, hh, hnew⟩ |
    ⟨-, hlt, hge, p, hp⟩
  · exact .of_eq hok ⟨h, by omega⟩
  · have hroom' := hh.room
    have hused' := hh.used
    exact .of_eq hok ⟨hh, by omega⟩
  · exact .of_error hp ⟨⟨p, rfl⟩, by omega⟩

theorem Holds.terminate_yields (h : vp.Holds s) (hn : s.length ≤ n + 96) :
    Yields (TooLong n) (vstringTerminate vp) fun vp' => vp'.Holds s ∧ vp'.Terminated := by
  have hspace : Yields (TooLong n) (if vp.cnt = 0 then vstringBufSpace vp 1 else pure vp)
      fun vp' => vp'.Holds s ∧ 1 ≤ vp'.cnt := by
    split
    · exact h.space_yields (by decide) hn
    · exact .of_eq rfl ⟨h, by omega⟩
  refine hspace.bind fun vp' ⟨hh, hcnt⟩ => ?_
  obtain ⟨data, hst, hh', hterm⟩ := hh.storeNull hcnt
  rw [hst]
  exact .of_eq rfl ⟨hh', hterm⟩

/-- Text that is printed at the position and skipped is stored up to its null byte. -/
theorem vbufSkip_stored {text : Bytes} (hroom : vp.ptr + vp.cnt = vp.data.length)
    (hfit : text.length < vp.cnt) :
    vbufSkip { vp with data := (vp.stored (text ++ [0])).data } =
      stored { vp with data := (vp.stored (text ++ [0])).data } (text.takeWhile (· ≠ 0)) := by
  have hptr : (vp.data.take vp.ptr).length = vp.ptr := by
    rw [List.length_take]
    omega
  generalize hdata : (vp.stored (text ++ [0])).data = data
  obtain ⟨rest, hdrop⟩ : ∃ rest, data.drop vp.ptr = text ++ 0 :: rest := by
    refine ⟨vp.data.drop (vp.ptr + (text ++ [0]).length), ?_⟩
    rw [← hdata, stored, List.append_assoc, List.drop_left' hptr]
    simp
  have hskip : ((data.drop vp.ptr).take vp.cnt).takeWhile (· ≠ 0) = text.takeWhile (· ≠ 0) := by
    obtain ⟨n, hn⟩ : ∃ n, vp.cnt - text.length = n + 1 := ⟨vp.cnt - text.length - 1, by omega⟩
    rw [hdrop, List.take_append, List.take_of_length_le (by omega), hn, List.take_succ_cons,
      takeWhile_null_append]
  have hkeep : data.take vp.ptr ++ text.takeWhile (· ≠ 0) ++
      data.drop (vp.ptr + (text.takeWhile (· ≠ 0)).length) = data := by
    obtain ⟨tl, htl⟩ := List.takeWhile_prefix (p := fun c : BitVec 8 => c ≠ 0) (l := text)
    have hback : data.drop (vp.ptr + (text.takeWhile (· ≠ 0)).length) = tl ++ 0 :: rest := by
      have hsplit : text ++ 0 :: rest = text.takeWhile (· ≠ 0) ++ (tl ++ 0 :: rest) := by
        rw [← List.append_assoc, htl]
      rw [← List.drop_drop, hdrop, hsplit]
      exact List.drop_left
    rw [hback, List.append_assoc, ← List.append_assoc (text.takeWhile _), htl, ← hdrop,
      List.take_append_drop]
  rw [stored, hkeep, vbufSkip, hskip]

/-- Text that is printed behind the string and skipped is added up to its null byte. -/
theorem Holds.skip_text (h : vp.Holds s) {text data : Bytes}
    (hst : storeAt vp.data vp.ptr (text ++ [0]) = .ok data) :
    (vbufSkip { vp with data := data }).Holds (s ++ text.takeWhile (· ≠ 0)) := by
  obtain ⟨hfit, -, -⟩ := h.of_store hst
  rw [List.length_append, List.length_singleton] at hfit
  have hroom := h.room.trans h.block.symm
  have hstored : (vp.stored (text ++ [0])).data = data := by
    refine Except.ok.inj ((storeAt_eq ?_).symm.trans hst)
    rw [List.length_append, List.length_singleton]
    omega
  have hle : (text.takeWhile (· ≠ 0)).length ≤ text.length := (List.takeWhile_sublist _).length_le
  have hkept := h.keep hst
  have hend : vp.ptr + (text.takeWhile (· ≠ 0)).length ≤ data.length := by
    have := hkept.room
    have := hkept.block
    simp only at *
    omega
  rw [← hstored, vbufSkip_stored hroom (by omega), hstored]
  refine hkept.advance _ (by simp only; omega) ?_ ?_
  · exact (stored_data_length hend).trans hkept.block
  · rw [← hkept.contents]
    exact stored_take (by simp only; omega)

theorem Holds.addnum_yields (h : vp.Holds s) (i : BitVec 32) (hn : s.length ≤ n + 96) :
    Yields (TooLong n) (vstringAddnum vp i) fun vp' => vp'.Holds (s ++ fmtInt i.toInt) := by
  obtain ⟨hlen, hnull⟩ := fmtInt_length i
  refine (h.space_yields le_rfl hn).bind fun vp' ⟨hh, hcnt⟩ => ?_
  obtain ⟨data, hst, -⟩ := hh.store (fmtInt i.toInt ++ [0]) (by simp; omega)
  have hadd := hh.skip_text hst
  rw [takeWhile_null_of_notMem hnull] at hadd
  rw [hst]
  exact .of_eq rfl hadd

end Vbuf

/-! ## The parts of a format -/

/-- Decimal digits. -/
abbrev Digits := {s : Bytes // ∀ c ∈ s, isDigit c}

/-- A field width or a precision in a directive. -/
inductive NumPart
  | star
  | lit (digits : Digits)
  deriving DecidableEq

/-- A directive up to its type. -/
structure Directive where
  minus : Bool
  plus : Bool
  zero : Bool
  width : NumPart
  dot : Bool
  prec : NumPart
  long : Bool
  deriving DecidableEq

/-- A part of a format. -/
inductive Item
  | char (c : BitVec 8) (hc : c ≠ byte '%')
  | percent
  | directive (d : Directive) (type : BitVec 8)
  /-- A directive that the format ends in. -/
  | tail (d : Directive)
  deriving DecidableEq

/-- A character that is there or not. -/
def optChar (present : Bool) (c : Char) : Bytes := if present then [byte c] else []

/-- The bytes of a directive with those of its field width and its precision. -/
def Directive.spell (d : Directive) (width prec : Bytes) : Bytes :=
  byte '%' :: (optChar d.minus '-' ++ optChar d.plus '+' ++ optChar d.zero '0' ++ width ++
    optChar d.dot '.' ++ prec ++ optChar d.long 'l')

/-- The bytes in the format. -/
def NumPart.text : NumPart → Bytes
  | .star => cstr "*"
  | .lit digits => digits

/-- The bytes in the format. -/
def Directive.text (d : Directive) : Bytes := d.spell d.width.text d.prec.text

/-- The bytes in the format. -/
def Item.text : Item → Bytes
  | .char c _ => [c]
  | .percent => cstr "%%"
  | .directive d type => d.text ++ [type]
  | .tail d => d.text

theorem isDigit_of_mem_takeWhile (s : Bytes) : ∀ c ∈ s.takeWhile isDigit, isDigit c :=
  fun _ hc => List.mem_takeWhile_imp hc

/-- A character that can come next. -/
def takeChar (c : Char) (s : Bytes) : Bool × Bytes :=
  if s.head? = some (byte c) then (true, s.tail) else (false, s)

/-- A star or digits. -/
def takeNum (s : Bytes) : NumPart × Bytes :=
  if s.head? = some (byte '*') then (.star, s.tail)
  else (.lit ⟨s.takeWhile isDigit, isDigit_of_mem_takeWhile s⟩, s.dropWhile isDigit)

/-- What is behind a percent sign, and the rest from the type of the directive on. -/
def takeDirective (s : Bytes) : Directive × Bytes :=
  let (minus, s) := takeChar '-' s
  let (plus, s) := takeChar '+' s
  let (zero, s) := takeChar '0' s
  let (width, s) := takeNum s
  let (dot, s) := takeChar '.' s
  let (prec, s) := takeNum s
  let (long, s) := takeChar 'l' s
  (⟨minus, plus, zero, width, dot, prec, long⟩, s)

/-- The parts of the first `n` bytes at most. -/
def itemsLoop : ℕ → Bytes → List Item
  | 0, _ => []
  | _, [] => []
  | n + 1, c :: s =>
    if hc : c ≠ byte '%' then .char c hc :: itemsLoop n s
    else if s.head? = some (byte '%') then .percent :: itemsLoop n s.tail
    else
      match takeDirective s with
      | (d, []) => [.tail d]
      | (d, type :: s) => .directive d type :: itemsLoop n s

theorem itemsLoop_cons (n : ℕ) (c : BitVec 8) (s : Bytes) : itemsLoop (n + 1) (c :: s) =
    if hc : c ≠ byte '%' then .char c hc :: itemsLoop n s
    else if s.head? = some (byte '%') then .percent :: itemsLoop n s.tail
    else
      match takeDirective s with
      | (d, []) => [.tail d]
      | (d, type :: s) => .directive d type :: itemsLoop n s := rfl

/-- The parts of a format. -/
def items (format : Bytes) : List Item := itemsLoop format.length format

theorem takeChar_eq (c : Char) (s : Bytes) :
    optChar (takeChar c s).1 c ++ (takeChar c s).2 = s := by
  rw [takeChar]
  split
  · rename_i h
    cases s with
    | nil => cases h
    | cons ch s =>
      obtain rfl := Option.some.inj h
      rfl
  · rfl

@[simp] theorem takeChar_cons (c : Char) (s : Bytes) : takeChar c (byte c :: s) = (true, s) :=
  if_pos rfl

theorem takeChar_of_ne {c : Char} {s : Bytes} (h : s.head? ≠ some (byte c)) :
    takeChar c s = (false, s) :=
  if_neg h

@[simp] theorem takeNum_star (s : Bytes) : takeNum (byte '*' :: s) = (.star, s) := if_pos rfl

theorem takeNum_of_ne {s : Bytes} (h : s.head? ≠ some (byte '*')) : takeNum s =
    (.lit ⟨s.takeWhile isDigit, isDigit_of_mem_takeWhile s⟩, s.dropWhile isDigit) :=
  if_neg h

theorem takeNum_eq (s : Bytes) : (takeNum s).1.text ++ (takeNum s).2 = s := by
  rw [takeNum]
  split
  · rename_i h
    cases s with
    | nil => cases h
    | cons ch s =>
      obtain rfl := Option.some.inj h
      rfl
  · exact List.takeWhile_append_dropWhile

/-- A directive and the rest are what was there. -/
theorem takeDirective_eq (s : Bytes) :
    (takeDirective s).1.text ++ (takeDirective s).2 = byte '%' :: s := by
  simp only [takeDirective, Directive.text, Directive.spell, List.cons_append, List.append_assoc,
    takeChar_eq, takeNum_eq]

theorem takeDirective_length (s : Bytes) : (takeDirective s).2.length ≤ s.length := by
  have h := congrArg List.length (takeDirective_eq s)
  rw [List.length_append, Directive.text, Directive.spell, List.length_cons,
    List.length_cons] at h
  omega

/-- The parts of a format make up the format. -/
theorem itemsLoop_text {n : ℕ} {s : Bytes} (h : s.length ≤ n) :
    (itemsLoop n s).flatMap Item.text = s := by
  induction n generalizing s with
  | zero =>
    obtain rfl := List.eq_nil_of_length_eq_zero (Nat.le_zero.1 h)
    rfl
  | succ n ih =>
    cases s with
    | nil => rfl
    | cons c s =>
      rw [List.length_cons] at h
      rw [itemsLoop_cons]
      split
      · rw [List.flatMap_cons, ih (by omega)]
        rfl
      · rename_i hc
        obtain rfl := not_not.1 hc
        split
        · rename_i hnext
          cases s with
          | nil => cases hnext
          | cons c s =>
            obtain rfl := Option.some.inj hnext
            rw [List.length_cons] at h
            rw [List.flatMap_cons, List.tail_cons, ih (by omega)]
            rfl
        · have htext := takeDirective_eq s
          have hlen := takeDirective_length s
          split
          · rename_i d heq
            rw [heq, List.append_nil] at htext
            rw [List.flatMap_singleton]
            exact htext
          · rename_i d type rest heq
            rw [heq] at htext hlen
            rw [List.length_cons] at hlen
            rw [List.flatMap_cons, ih (by omega), ← htext]
            exact List.append_assoc _ _ _

theorem items_text (format : Bytes) : (items format).flatMap Item.text = format :=
  itemsLoop_text le_rfl

/-! ## Assembling a directive -/

/-- The value of digits that is computed with `int`. -/
def intOfDigits (digits : Bytes) : ℤ :=
  digits.foldl (fun n ch => intOf (n * 10 + ch.toNat - 48)) 0

/-- The bytes of a number with an argument in place of the star, and its value. -/
def NumPart.take : NumPart → List VaArg → Except Fault (Bytes × ℤ × List VaArg)
  | .lit digits, ap => pure (digits, intOfDigits digits, ap)
  | .star, ap => do
    let (n, ap) ← vaInt ap
    pure (fmtInt n.toInt, n.toInt, ap)

/-- The bytes of a directive with arguments in place of the stars, first that of the field width,
and the two numbers, where zero takes the place of a negative one. -/
def Directive.assemble (d : Directive) (ap : List VaArg) :
    Except Fault (Bytes × ℤ × ℤ × List VaArg) := do
  let (w, width, ap) ← d.width.take ap
  let (p, prec, ap) ← d.prec.take ap
  pure (d.spell w p, max width 0, max prec 0, ap)

section

variable {fmt : Vbuf} {t s junk : Bytes} {n k : ℕ}

/-- What is added to the string for directives comes off the format. -/
theorem scanChar_yields (h : fmt.Holds t) {c : Char} (hc : byte c ≠ 0)
    (hn : t.length + s.length + k ≤ n + 96) :
    Yields (TooLong n) (scanChar fmt (s ++ 0 :: junk) c) fun r =>
      r.1 = (takeChar c s).1 ∧ r.2.1.Holds (t ++ optChar (takeChar c s).1 c) ∧
        (t ++ optChar (takeChar c s).1 c).length + (takeChar c s).2.length + k ≤ n + 96 ∧
        r.2.2 = (takeChar c s).2 ++ 0 :: junk := by
  have hnext : (t ++ optChar (takeChar c s).1 c).length + (takeChar c s).2.length + k ≤ n + 96 := by
    have hsplit := congrArg List.length (takeChar_eq c s)
    rw [List.length_append] at hsplit ⊢
    omega
  have hno : Yields (TooLong n) (pure (false, fmt, s ++ 0 :: junk)) fun r =>
      r.1 = false ∧ r.2.1.Holds (t ++ optChar false c) ∧ r.2.2 = s ++ 0 :: junk :=
    .of_eq rfl ⟨rfl, by rwa [optChar, if_neg (by decide), List.append_nil], rfl⟩
  suffices hyes : Yields (TooLong n) (scanChar fmt (s ++ 0 :: junk) c) fun r =>
      r.1 = (takeChar c s).1 ∧ r.2.1.Holds (t ++ optChar (takeChar c s).1 c) ∧
        r.2.2 = (takeChar c s).2 ++ 0 :: junk from
    hyes.mono fun r ⟨hr, hh, hcp⟩ => ⟨hr, hh, hnext, hcp⟩
  cases s with
  | nil =>
    rw [takeChar_of_ne (by simp), List.nil_append, scanChar, if_neg hc.symm]
    exact hno
  | cons ch s =>
    by_cases heq : ch = byte c
    · subst heq
      rw [takeChar_cons, List.cons_append, scanChar, if_pos rfl]
      exact (h.addch_yields _ (by omega)).bind fun fmt' hh => .of_eq rfl ⟨rfl, hh, rfl⟩
    · rw [takeChar_of_ne (by simpa using heq), List.cons_append, scanChar, if_neg heq]
      exact hno

theorem scanDigits_yields (h : fmt.Holds t) (v : ℤ) (hn : t.length + s.length ≤ n + 96) :
    Yields (TooLong n) (scanDigits v fmt (s ++ 0 :: junk)) fun r =>
      r.1 = (s.takeWhile isDigit).foldl (fun n ch => intOf (n * 10 + ch.toNat - 48)) v ∧
        r.2.1.Holds (t ++ s.takeWhile isDigit) ∧
        r.2.2 = s.dropWhile isDigit ++ 0 :: junk := by
  induction s generalizing fmt t v with
  | nil =>
    rw [List.nil_append, scanDigits, if_neg (by decide)]
    exact .of_eq rfl ⟨rfl, by rwa [List.takeWhile_nil, List.append_nil], rfl⟩
  | cons ch s ih =>
    rw [List.length_cons] at hn
    rw [List.cons_append, scanDigits]
    by_cases hch : isDigit ch
    · rw [if_pos hch, List.takeWhile_cons_of_pos hch, List.dropWhile_cons_of_pos hch,
        List.foldl_cons, List.append_cons t]
      exact (h.addch_yields ch (by omega)).bind fun fmt' hh => ih hh _ (by simp; omega)
    · rw [if_neg hch, List.takeWhile_cons_of_neg hch, List.dropWhile_cons_of_neg hch,
        List.append_nil]
      exact .of_eq rfl ⟨rfl, h, rfl⟩

theorem zero_notMem_of_isDigit {digits : Bytes} (h : ∀ c ∈ digits, isDigit c) : 0 ∉ digits :=
  fun h0 => absurd (h 0 h0) (by decide)

/-- A number is taken off the format, and an argument for a star. -/
theorem scanNum_follows (h : fmt.Holds t) (ap : List VaArg)
    (hn : t.length + s.length + (k + intSpace) ≤ n + 96) :
    Follows (TooLong n) (scanNum fmt ap (s ++ 0 :: junk)) ((takeNum s).1.take ap) fun r q =>
      r.1 = max q.2.1 0 ∧ r.2.1.Holds (t ++ q.1) ∧ 0 ∉ q.1 ∧ r.2.2.1 = q.2.2 ∧
        (t ++ q.1).length + (takeNum s).2.length + k ≤ n + 96 ∧
        r.2.2.2 = (takeNum s).2 ++ 0 :: junk := by
  have hmax : ∀ n : ℤ, (if n < 0 then 0 else n) = max n 0 := by
    intro n
    split <;> omega
  unfold scanNum
  by_cases hstar : s.head? = some (byte '*')
  · cases s with
    | nil => cases hstar
    | cons ch s =>
      obtain rfl := Option.some.inj hstar
      rw [takeNum_star, NumPart.take, List.cons_append]
      simp only [if_true]
      rw [bind_assoc]
      refine Follows.bind (R := fun r q => r = q) ?_ fun r q hrq => ?_
      · cases vaInt ap with
        | error e => exact .of_error rfl rfl
        | ok r => exact .of_eq rfl rfl rfl
      subst hrq
      rw [bind_assoc]
      refine Follows.bind_left (h.addnum_yields _ (by omega)) fun fmt' hh => .of_eq rfl rfl ?_
      have hlen := (fmtInt_length r.1).1
      refine ⟨hmax _, hh, (fmtInt_length _).2, rfl, ?_, rfl⟩
      rw [List.length_cons] at hn
      simp only [List.length_append]
      omega
  · rw [takeNum_of_ne hstar, NumPart.take]
    have hne : ∀ ch rest, s ++ 0 :: junk = ch :: rest → ch ≠ byte '*' := by
      rintro ch rest heq rfl
      cases s with
      | nil => cases heq
      | cons c s =>
        obtain ⟨rfl, -⟩ := List.cons.inj heq
        exact hstar rfl
    have hdigits := @scanDigits_yields fmt t s junk n h 0 (by omega)
    generalize hcp : s ++ 0 :: junk = cp at *
    cases cp with
    | nil => simp at hcp
    | cons ch rest =>
      simp only [hne ch rest rfl, if_false]
      rw [bind_assoc]
      refine Follows.bind_left hdigits fun r ⟨hv, hh, hcp'⟩ => .of_eq rfl rfl ?_
      refine ⟨?_, hh, zero_notMem_of_isDigit (isDigit_of_mem_takeWhile s), rfl, ?_, hcp'⟩
      · rw [hmax, hv]
        rfl
      · have hsplit := congrArg List.length
          (List.takeWhile_append_dropWhile (p := isDigit) (l := s))
        simp only [List.length_append] at hsplit ⊢
        omega

theorem zero_notMem_optChar (present : Bool) {c : Char} (hc : byte c ≠ 0) :
    0 ∉ optChar present c := by
  rw [optChar]
  split
  · simpa using hc.symm
  · exact List.not_mem_nil

theorem zero_notMem_spell (d : Directive) {w p : Bytes} (hw : 0 ∉ w) (hp : 0 ∉ p) :
    0 ∉ d.spell w p := by
  simp only [Directive.spell, List.mem_cons, List.mem_append, not_or]
  refine ⟨by decide, ⟨⟨⟨⟨⟨⟨?_, ?_⟩, ?_⟩, hw⟩, ?_⟩, hp⟩, ?_⟩⟩
  all_goals exact zero_notMem_optChar _ (by decide)

/-- A complete string, as the C library sees it. -/
theorem vstringStr_eq (h : fmt.data.take fmt.ptr = t) (hterm : fmt.Terminated) (h0 : 0 ∉ t) :
    vstringStr fmt = t := by
  have hsplit := List.take_append_drop fmt.ptr fmt.data
  rw [h] at hsplit
  have hdrop : (fmt.data.drop fmt.ptr).head? = some 0 := by
    rw [List.head?_drop]
    exact hterm.2
  obtain ⟨rest, hrest⟩ := List.head?_eq_some_iff.1 hdrop
  rw [vstringStr, ← hsplit, hrest, takeWhile_null_append, takeWhile_null_of_notMem h0]

/-- The type completes the string. -/
theorem scanType_yields (h : fmt.Holds t) (ht : 0 ∉ t) (h0 : 0 ∉ s)
    (hn : t.length + s.length ≤ n + 96) :
    Yields (TooLong n) (scanType fmt (s ++ 0 :: junk)) fun r => r.2.1.Sound ∧
      match s with
      | [] => r.1 = none
      | type :: rest => r.1 = some type ∧ vstringStr r.2.1 = t ++ [type] ∧
          r.2.2 = rest ++ 0 :: junk := by
  cases s with
  | nil =>
    rw [List.nil_append, scanType, if_pos rfl]
    exact .of_eq rfl ⟨⟨t, h⟩, rfl⟩
  | cons type rest =>
    obtain ⟨htype, hrest⟩ : 0 ≠ type ∧ 0 ∉ rest := not_or.1 fun hm => h0 (List.mem_cons.2 hm)
    rw [List.cons_append, scanType, if_neg htype.symm]
    rw [List.length_cons] at hn
    refine (h.addch_yields type (by omega)).bind fun fmt' hh =>
      (hh.terminate_yields (by simp; omega)).bind fun fmt'' ⟨hh', hterm⟩ =>
        .of_eq rfl ⟨⟨_, hh'⟩, rfl, vstringStr_eq hh'.contents hterm ?_, rfl⟩
    rw [List.mem_append, List.mem_singleton]
    exact fun hm => hm.elim ht htype

/-- What is taken off the format is the directive with its stars replaced, and the rest of the
format is what comes after it. At a premature end there is no type. -/
theorem scanDirective_follows (h : fmt.Sound) (ap : List VaArg) (h0 : 0 ∉ s) (hn : s.length < n) :
    Follows (TooLong n) (scanDirective fmt ap (byte '%' :: s ++ 0 :: junk))
      ((takeDirective s).1.assemble ap) fun r q =>
        r.2.1.Sound ∧ r.2.2.1 = q.2.2.2 ∧
        match (takeDirective s).2 with
        | [] => r.1 = none
        | type :: rest =>
          r.1 = some ⟨type, q.2.1, q.2.2.1, (takeDirective s).1.long⟩ ∧
            vstringStr r.2.1 = q.1 ++ [type] ∧ r.2.2.2 = rest ++ 0 :: junk := by
  obtain ⟨u, hu⟩ := h
  have hrest : 0 ∉ (takeDirective s).2 := by
    intro hm
    have hmem := List.mem_append_right (takeDirective s).1.text hm
    rw [takeDirective_eq] at hmem
    exact (List.mem_cons.1 hmem).elim (by decide) h0
  unfold scanDirective Directive.assemble
  simp only [takeDirective] at hrest ⊢
  -- each character or number goes to the string, behind what is there
  have hn : ([] : Bytes).length + (byte '%' :: s).length + (0 + intSpace + intSpace) ≤ n + 96 := by
    rw [List.length_nil, List.length_cons, intSpace]
    omega
  refine .bind_left (scanChar_yields hu.reset (by decide) hn) ?_
  rintro ⟨present, fmt, cp⟩ ⟨-, hfmt, hn, rfl⟩
  simp only [takeChar_cons] at hfmt hn ⊢
  refine .bind_left (scanChar_yields hfmt (by decide) hn) ?_
  rintro ⟨present, fmt, cp⟩ ⟨-, hfmt, hn, rfl⟩
  refine .bind_left (scanChar_yields hfmt (by decide) hn) ?_
  rintro ⟨present, fmt, cp⟩ ⟨-, hfmt, hn, rfl⟩
  refine .bind_left (scanChar_yields hfmt (by decide) hn) ?_
  rintro ⟨present, fmt, cp⟩ ⟨-, hfmt, hn, rfl⟩
  refine .bind (scanNum_follows hfmt ap hn) ?_
  rintro ⟨width, fmt, ap, cp⟩ ⟨w, width', ap'⟩ ⟨hwidth, hfmt, hw, hap, hn, hcp⟩
  simp only at hwidth hap hcp hw hn ⊢
  subst hwidth hap hcp
  refine .bind_left (scanChar_yields hfmt (by decide) hn) ?_
  rintro ⟨present, fmt, cp⟩ ⟨-, hfmt, hn, rfl⟩
  refine .bind (scanNum_follows hfmt _ hn) ?_
  rintro ⟨prec, fmt, ap, cp⟩ ⟨p, prec', ap'⟩ ⟨hprec, hfmt, hp, hap, hn, hcp⟩
  simp only at hprec hap hcp hp hn ⊢
  subst hprec hap hcp
  refine .bind_left (scanChar_yields hfmt (by decide) hn) ?_
  rintro ⟨long, fmt, cp⟩ ⟨hlong, hfmt, hn, hcp⟩
  simp only at hlong hfmt hcp hn ⊢
  subst hlong hcp
  generalize (takeChar 'l' _).2 = rest at hrest hn ⊢
  generalize hd : Directive.mk _ _ _ _ _ _ _ = d
  obtain ⟨hspell, hn⟩ : fmt.Holds (d.spell w p) ∧
      (d.spell w p).length + rest.length + 0 ≤ n + 96 := by
    rw [← hd]
    simpa only [Directive.spell, optChar, if_true, List.nil_append, List.cons_append,
      List.append_assoc] using And.intro hfmt hn
  refine .bind_left (scanType_yields hspell (zero_notMem_spell d hw hp) hrest hn) ?_
  rintro ⟨type, fmt, cp⟩ ⟨hsound, htype⟩
  refine .of_eq rfl rfl ⟨hsound, rfl, ?_⟩
  cases rest with
  | nil => exact congrArg (Option.map _) htype
  | cons ch rest =>
    obtain ⟨htype, hstr, hcp⟩ := htype
    exact ⟨congrArg (Option.map _) htype, hstr, hcp⟩

end

/-! ## Printing part by part -/

section

variable {σ : Type} (libc : Libc) (put : VbufFn σ) (space : SpaceFn σ)

/-- Print a part of a format. Returns whether there was no space. -/
def Item.exec (b : VbufEnv σ) (ap : List VaArg) :
    Item → Except Fault (Bool × VbufEnv σ × List VaArg)
  | .char c _ => do
    let (_, b) ← b.vbufPut put 32 c
    pure (false, b, ap)
  | .percent => do
    let (_, b) ← b.vbufPut put 32 (byte '%')
    pure (false, b, ap)
  | .directive d type => do
    let (text, width, prec, ap) ← d.assemble ap
    printConversion libc put space (text ++ [type]) ⟨type, width, prec, d.long⟩ b ap
  | .tail d => do
    let (_, _, _, ap) ← d.assemble ap
    pure (false, b, ap)

/-- Print parts of a format, until there is no space. -/
def execItems : List Item → VbufEnv σ → List VaArg → Except Fault (VbufEnv σ × List VaArg)
  | [], b, ap => pure (b, ap)
  | item :: items, b, ap => do
    let (failed, b, ap) ← item.exec libc put space b ap
    if failed then pure (b, ap) else execItems items b ap

end

section

variable {σ : Type} {libc : Libc} {put : VbufFn σ} {space : SpaceFn σ} {s junk : Bytes}

theorem vbufPrintLoop_end {st : PrintState σ} {turns : ℕ} (hturns : 0 < turns) :
    vbufPrintLoop libc put space turns st (0 :: junk) = .ok st := by
  obtain ⟨turns, rfl⟩ : ∃ m, turns = m + 1 := ⟨turns - 1, by omega⟩
  unfold vbufPrintLoop
  simp only [if_true]
  rfl

/-- What comes after a directive has no null byte either. -/
theorem notMem_of_takeDirective {d : Directive} {type : BitVec 8} {tl : Bytes}
    (hsplit : d.text ++ type :: tl = byte '%' :: s) (h0 : 0 ∉ s) : 0 ∉ tl := by
  intro hm
  have hmem := List.mem_append_right d.text (List.mem_cons_of_mem type hm)
  rw [hsplit] at hmem
  exact (List.mem_cons.1 hmem).elim (by decide) h0

/-- The loop prints the parts one by one. It does not see what is behind the null byte. -/
theorem vbufPrintLoop_follows {n m turns : ℕ} {b : VbufEnv σ} {fmt : Vbuf} {ap : List VaArg}
    (hfmt : fmt.Sound) (hn : s.length ≤ n) (hm : s.length ≤ m) (hturns : s.length < turns)
    (h0 : 0 ∉ s) :
    Follows (TooLong m) (vbufPrintLoop libc put space turns ⟨b, fmt, ap⟩ (s ++ 0 :: junk))
      (execItems libc put space (itemsLoop n s) b ap) fun st r =>
        st.fmt.Sound ∧ (st.b, st.ap) = r := by
  induction n generalizing s turns b fmt ap with
  | zero =>
    obtain rfl := List.eq_nil_of_length_eq_zero (Nat.le_zero.1 hn)
    exact .of_eq (vbufPrintLoop_end hturns) rfl ⟨hfmt, rfl⟩
  | succ n ih =>
    cases s with
    | nil => exact .of_eq (vbufPrintLoop_end hturns) rfl ⟨hfmt, rfl⟩
    | cons c s =>
      obtain ⟨hc0, hs⟩ : 0 ≠ c ∧ 0 ∉ s := not_or.1 fun hm => h0 (List.mem_cons.2 hm)
      rw [List.length_cons] at hn hm hturns
      obtain ⟨turns, rfl⟩ : ∃ m, turns = m + 1 := ⟨turns - 1, by omega⟩
      rw [List.cons_append, itemsLoop_cons]
      unfold vbufPrintLoop
      simp only [if_neg hc0.symm]
      by_cases hc : c = byte '%'
      · subst hc
        rw [if_neg (not_not.2 rfl), dif_neg (not_not.2 rfl)]
        by_cases hnext : s.head? = some (byte '%')
        · cases s with
          | nil => cases hnext
          | cons c s =>
            obtain rfl := Option.some.inj hnext
            rw [List.length_cons] at hn hm hturns
            rw [if_pos hnext, execItems, Item.exec, bind_assoc]
            simp only [List.cons_append, if_true]
            refine .bind (.refl _) fun r _ hr => ?_
            subst hr
            exact ih hfmt (by omega) (by omega) (by omega) fun hm => hs (List.mem_cons_of_mem _ hm)
        · obtain ⟨next, rest, hcp, hne⟩ :
              ∃ next rest, s ++ 0 :: junk = next :: rest ∧ next ≠ byte '%' := by
            cases s with
            | nil => exact ⟨0, junk, rfl, by decide⟩
            | cons c s => exact ⟨c, s ++ 0 :: junk, rfl, fun heq => hnext (heq ▸ rfl)⟩
          have hscan := @scanDirective_follows fmt s junk m hfmt ap hs (by omega)
          have hsplit := takeDirective_eq s
          have hlen := takeDirective_length s
          rw [List.cons_append, hcp] at hscan
          simp only [hcp, if_neg hnext, if_neg hne]
          generalize takeDirective s = r at hscan hsplit hlen ⊢
          obtain ⟨d, tl⟩ := r
          cases tl with
          | nil =>
            simp only [execItems, Item.exec, bind_assoc]
            refine .bind hscan ?_
            rintro ⟨c, fmt, ap, cp⟩ q ⟨hsound, hap, hnone⟩
            simp only at hap hnone ⊢
            subst hap hnone
            exact .of_eq rfl rfl ⟨hsound, rfl⟩
          | cons type tl =>
            have htl := notMem_of_takeDirective hsplit hs
            rw [List.length_cons] at hlen
            simp only [execItems, Item.exec, bind_assoc]
            refine .bind hscan ?_
            rintro ⟨c, fmt, ap, cp⟩ q ⟨hsound, hap, hc, hstr, hcp⟩
            simp only at hap hc hstr hcp ⊢
            subst hap hc hcp
            rw [hstr]
            refine .bind (.refl _) fun r _ hr => ?_
            subst hr
            split
            · exact .of_eq rfl rfl ⟨hsound, rfl⟩
            · exact ih hsound (by omega) (by omega) (by omega) htl
      · rw [if_pos hc, dif_pos hc, execItems, Item.exec, bind_assoc]
        refine .bind (.refl _) fun r _ hr => ?_
        subst hr
        exact ih hfmt (by omega) (by omega) (by omega) hs

end

end Nowra
