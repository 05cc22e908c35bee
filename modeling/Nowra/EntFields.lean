import Nowra.Tokens

/-!
# The numbers of an entry

`get_int_ent` takes what `atoi` makes of a field for its value. That is the number that the field
begins with, modulo `2 ^ 32`, and zero where there is none. It rejects a field if and only if this
is negative, so every other field that is no number is accepted (`fields_validated_iff`). For the
process limit zero means that there is no limit.

Whether the wake-up is conditional is not read from the field but from the memory in front of the
line, so what comes out is right only where there is no wake-up (`condwake_exact_iff`).
-/

namespace Nowra

/-! ## Numerals -/

/-- Decimal digits, one at least. -/
def Numeral (s : Bytes) : Prop := s ≠ [] ∧ ∀ c ∈ s, isDigit c

/-- The field is the default or a number of seconds, which a question mark can follow. -/
def WakeupToken (tok : Bytes) (n : ℤ) : Prop :=
  tok = cstr "-" ∧ n = 0 ∨
    ∃ digits, Numeral digits ∧ (tok = digits ∨ tok = digits ++ cstr "?") ∧
      n = digitsValue digits ∧ n < 2 ^ 31

/-- The field is the default or a number of processes. -/
def MaxProcToken (tok : Bytes) (n : ℤ) : Prop :=
  tok = cstr "-" ∧ n = varProcLimit ∨ Numeral tok ∧ n = digitsValue tok ∧ n < 2 ^ 31

/-- `strtol` reads the digits at the start. -/
theorem strtol_append {digits rest : Bytes} (h : Numeral digits)
    (hrest : ∀ c ∈ rest.head?, isDigit c = false) :
    strtol (digits ++ rest) = min (digitsValue digits) (2 ^ 63 - 1) := by
  obtain ⟨hne, hdigits⟩ := h
  have htake : (digits ++ rest).takeWhile isDigit = digits := by
    rw [List.takeWhile_append_of_pos hdigits]
    cases rest with
    | nil => rw [List.takeWhile_nil, List.append_nil]
    | cons c rest =>
      rw [List.takeWhile_cons_of_neg (by simp [hrest c rfl]), List.append_nil]
  obtain ⟨c, s, rfl⟩ := List.exists_cons_of_ne_nil hne
  have hc := hdigits c List.mem_cons_self
  have hspace : isSpace c = false := by
    simp only [isDigit, isSpace, decide_eq_true_eq, decide_eq_false_iff_not] at hc ⊢
    bv_omega
  have hminus : c ≠ 45#8 := by
    simp only [isDigit, decide_eq_true_eq] at hc
    bv_omega
  have hplus : c ≠ 43#8 := by
    simp only [isDigit, decide_eq_true_eq] at hc
    bv_omega
  have hdrop : (c :: s ++ rest).dropWhile isSpace = c :: s ++ rest :=
    List.dropWhile_cons_of_neg (by simp [hspace])
  have hhead : (c :: s ++ rest).head? = some c := rfl
  unfold strtol
  simp only [hdrop, hhead, Option.some.injEq, hminus, hplus, if_false, htake]
  omega

/-- A number that is no more than `INT_MAX` is what `atoi` says. -/
theorem atoi_append {digits rest : Bytes} (h : Numeral digits)
    (hrest : ∀ c ∈ rest.head?, isDigit c = false) (hlt : (digitsValue digits : ℤ) < 2 ^ 31) :
    atoi (digits ++ rest) = digitsValue digits := by
  rw [atoi, strtol_append h hrest, min_eq_left (by omega), intOf_eq (by omega) hlt]

theorem atoi_numeral {digits : Bytes} (h : Numeral digits)
    (hlt : (digitsValue digits : ℤ) < 2 ^ 31) : atoi digits = digitsValue digits := by
  have happ := @atoi_append digits [] h (by simp) hlt
  rwa [List.append_nil] at happ

/-- The number that the field begins with is negative as an `int`. -/
def NegativeInt (tok : Bytes) : Prop := 2 ^ 31 ≤ strtol tok % 2 ^ 32

theorem atoi_neg_iff {tok : Bytes} : atoi tok < 0 ↔ NegativeInt tok := by
  unfold atoi intOf NegativeInt
  omega

/-! ## Fields -/

section

variable {name : String} {defVal tok : Bytes}

/-- A field that is not negative is accepted. -/
theorem intOfTokens_of_nonneg (h : 0 ≤ atoi (fieldValue defVal tok)) (toks : List Bytes) :
    intOfTokens name defVal 0 (tok :: toks) = .ok (⟨atoi (fieldValue defVal tok), h⟩, toks) := by
  rw [intOfTokens, strOfTokens_cons]
  exact dif_pos h

theorem intOfTokens_of_neg (h : atoi (fieldValue defVal tok) < 0) (toks : List Bytes) :
    intOfTokens name defVal 0 (tok :: toks) =
      .error (.badValue name (fieldValue defVal tok)) := by
  rw [intOfTokens, strOfTokens_cons]
  exact dif_neg (not_le.2 h)

theorem fieldValue_of_ne (h : tok ≠ cstr "-") : fieldValue defVal tok = tok := if_neg h

end

/-- A number of seconds is what is stored. -/
theorem WakeupToken.atoi_eq {tok : Bytes} {n : ℤ} (h : WakeupToken tok n) :
    atoi (fieldValue (cstr "0") tok) = n := by
  have hdash : ∀ {digits : Bytes}, Numeral digits → ∀ rest, digits ++ rest ≠ cstr "-" := by
    intro digits hd rest heq
    obtain ⟨c, s, rfl⟩ := List.exists_cons_of_ne_nil hd.1
    obtain ⟨rfl, -⟩ := List.cons.inj heq
    exact absurd (hd.2 _ List.mem_cons_self) (by decide)
  rcases h with ⟨rfl, rfl⟩ | ⟨digits, hd, rfl | rfl, rfl, hlt⟩
  · decide
  · rw [fieldValue_of_ne (by simpa using hdash hd []), atoi_numeral hd hlt]
  · rw [fieldValue_of_ne (hdash hd _), atoi_append hd (by decide) hlt]

theorem WakeupToken.atoi_nonneg {tok : Bytes} {n : ℤ} (h : WakeupToken tok n) :
    0 ≤ atoi (fieldValue (cstr "0") tok) := by
  rw [h.atoi_eq]
  rcases h with ⟨-, rfl⟩ | ⟨digits, -, -, rfl, -⟩
  · exact le_rfl
  · exact Int.natCast_nonneg _

/-- A number of processes is what is stored. -/
theorem MaxProcToken.atoi_eq {tok : Bytes} {n : ℤ} (h : MaxProcToken tok n) :
    atoi (fieldValue (fmtInt varProcLimit) tok) = n := by
  rcases h with ⟨rfl, rfl⟩ | ⟨hd, rfl, hlt⟩
  · decide
  · have hne : tok ≠ cstr "-" := by
      rintro rfl
      exact absurd (hd.2 _ List.mem_cons_self) (by decide)
    rw [fieldValue_of_ne hne, atoi_numeral hd hlt]

theorem strOfTokens_ne_badValue {name field : String} {value : Bytes} {toks : List Bytes} :
    strOfTokens name none toks ≠ .error (.badValue field value) := by
  unfold strOfTokens
  split
  · rintro ⟨⟩
  · split <;> rintro ⟨⟩

section

variable {before : BitVec 8 × BitVec 8} {first : BitVec 8} {cp w : Bytes} {rest : List Bytes}

theorem entOfTokens_wakeup (h : atoi (fieldValue (cstr "0") w) < 0) :
    entOfTokens before first cp (masterXportNameInet :: w :: rest) =
      .error (.badValue "wakeup_time" (fieldValue (cstr "0") w)) := by
  have htransport : strOfTokens "transport type" none (masterXportNameInet :: w :: rest) =
      .ok (masterXportNameInet, w :: rest) := rfl
  rw [entOfTokens, htransport]
  simp only [bind, Except.bind, ne_eq, not_true, if_false, intOfTokens_of_neg h]

/-- What happens to a line with a number of seconds is decided by the next tokens. -/
theorem entOfTokens_maxProc (h : 0 ≤ atoi (fieldValue (cstr "0") w)) :
    (∃ m ∈ rest.head?, atoi (fieldValue (fmtInt varProcLimit) m) < 0 ∧
      entOfTokens before first cp (masterXportNameInet :: w :: rest) =
        .error (.badValue "max_proc" (fieldValue (fmtInt varProcLimit) m))) ∨
    (∀ m ∈ rest.head?, 0 ≤ atoi (fieldValue (fmtInt varProcLimit) m)) ∧
      ∀ name value, entOfTokens before first cp (masterXportNameInet :: w :: rest) ≠
        .error (.badValue name value) := by
  have htransport : strOfTokens "transport type" none (masterXportNameInet :: w :: rest) =
      .ok (masterXportNameInet, w :: rest) := rfl
  rw [entOfTokens, htransport]
  simp only [bind, Except.bind, ne_eq, not_true, if_false, intOfTokens_of_nonneg h]
  cases rest with
  | nil => exact .inr ⟨by simp, fun name value heq => by cases heq⟩
  | cons m rest =>
    by_cases hm : atoi (fieldValue (fmtInt varProcLimit) m) < 0
    · rw [intOfTokens_of_neg hm]
      exact .inl ⟨m, rfl, hm, rfl⟩
    · rw [intOfTokens_of_nonneg (not_lt.1 hm)]
      refine .inr ⟨by simpa using hm, fun name value heq => ?_⟩
      cases hcommand : strOfTokens "command" none rest with
      | error e =>
        simp only [hcommand] at heq
        exact strOfTokens_ne_badValue
          (hcommand.trans (congrArg Except.error (Except.error.inj heq)))
      | ok r =>
        simp only [hcommand] at heq
        cases heq

end

/-! ## What is accepted -/

/-- An entry is returned only for numbers in range, with their values. Every other field is
rejected. The field for the number of seconds comes first. -/
def FieldsValidated (before : BitVec 8 × BitVec 8) (fp w : Bytes) (rest : List Bytes) : Prop :=
  (∀ ent fp', readMasterEnt before fp = .ok (some (ent, fp')) →
    WakeupToken w ent.wakeupTime.val ∧ ∃ m ∈ rest.head?, MaxProcToken m ent.maxProc.val) ∧
  ((∀ n, ¬WakeupToken w n) → readMasterEnt before fp = .error (.badValue "wakeup_time" w)) ∧
  ∀ m ∈ rest.head?, (∃ n, WakeupToken w n) → (∀ n, ¬MaxProcToken m n) →
    readMasterEnt before fp = .error (.badValue "max_proc" m)

section

variable {before : BitVec 8 × BitVec 8} {fp w : Bytes} {s : EntStart} {rest : List Bytes}

/-- The line that is read with its tokens. -/
theorem readMasterEnt_tokens (hs : skipLines fp.length fp = some s) :
    readMasterEnt before fp = (fun ent => some (ent, s.fp)) <$>
      entOfTokens before (s.buf.headD 0) s.cp (strtokAll masterBlanks s.bufp) := by
  simp only [readMasterEnt, hs]
  rw [masterEntOfLine_eq]
  rfl

theorem readMasterEnt_ok (hs : skipLines fp.length fp = some s) {ent : EntLine} {fp' : Bytes}
    (h : readMasterEnt before fp = .ok (some (ent, fp'))) :
    entOfTokens before (s.buf.headD 0) s.cp (strtokAll masterBlanks s.bufp) = .ok ent := by
  rw [readMasterEnt_tokens hs] at h
  cases htoks : entOfTokens before (s.buf.headD 0) s.cp (strtokAll masterBlanks s.bufp) with
  | error e =>
    rw [htoks] at h
    cases h
  | ok ent' =>
    rw [htoks] at h
    obtain ⟨rfl, -⟩ := Prod.mk.inj (Option.some.inj (Except.ok.inj h))
    rfl

theorem readMasterEnt_error (hs : skipLines fp.length fp = some s) {e : EntError} :
    readMasterEnt before fp = .error e ↔
      entOfTokens before (s.buf.headD 0) s.cp (strtokAll masterBlanks s.bufp) = .error e := by
  rw [readMasterEnt_tokens hs]
  cases entOfTokens before (s.buf.headD 0) s.cp (strtokAll masterBlanks s.bufp) with
  | error e' =>
    exact ⟨fun h => congrArg Except.error (Except.error.inj h),
      fun h => congrArg Except.error (Except.error.inj h)⟩
  | ok ent => exact iff_of_false (fun h => by cases h) fun h => by cases h

end

/-- The fields are validated if and only if each that is examined is a number in range or begins
with one that is negative as an `int`. -/
theorem fields_validated_iff (before : BitVec 8 × BitVec 8) {fp w : Bytes} {s : EntStart}
    {rest : List Bytes} (hs : skipLines fp.length fp = some s)
    (htoks : strtokAll masterBlanks s.bufp = masterXportNameInet :: w :: rest) :
    FieldsValidated before fp w rest ↔
      ((∃ n, WakeupToken w n) ∧
        ∀ m ∈ rest.head?, (∃ n, MaxProcToken m n) ∨ NegativeInt m) ∨
      (∀ n, ¬WakeupToken w n) ∧ NegativeInt w := by
  have hread := @readMasterEnt_error before fp s hs
  have hok := @readMasterEnt_ok before fp s hs
  rw [htoks] at hread hok
  -- a field that is no number is no default either
  have hw : (∀ n, ¬WakeupToken w n) → fieldValue (cstr "0") w = w := fun hno =>
    fieldValue_of_ne fun heq => hno 0 (.inl ⟨heq, rfl⟩)
  have hm : ∀ m, (∀ n, ¬MaxProcToken m n) → fieldValue (fmtInt varProcLimit) m = m := fun m hno =>
    fieldValue_of_ne fun heq => hno varProcLimit (.inl ⟨heq, rfl⟩)
  constructor
  · rintro ⟨hstored, hwakeup, hmax⟩
    by_cases hvalid : ∃ n, WakeupToken w n
    · refine .inl ⟨hvalid, fun m hmem => or_iff_not_imp_left.2 fun hno => ?_⟩
      have hno := not_exists.1 hno
      obtain ⟨n, hn⟩ := hvalid
      have hpos := hn.atoi_nonneg
      have herr := hread.1 (hmax m hmem ⟨n, hn⟩ hno)
      rcases entOfTokens_maxProc hpos with ⟨m', hm', hneg, -⟩ | ⟨-, hne⟩
      · obtain rfl := Option.mem_unique hmem hm'
        rwa [hm m hno, atoi_neg_iff] at hneg
      · exact absurd herr (hne _ _)
    · have hno := not_exists.1 hvalid
      refine .inr ⟨hno, atoi_neg_iff.1 (lt_of_not_ge fun hpos => ?_)⟩
      have herr := hread.1 (hwakeup hno)
      rw [← hw hno] at hpos
      rcases entOfTokens_maxProc hpos with ⟨m, -, -, heq⟩ | ⟨-, hne⟩
      · exact absurd (herr.symm.trans heq) (by simp)
      · exact absurd herr (hne _ _)
  · rintro (⟨⟨n, hn⟩, hvalid⟩ | ⟨hno, hneg⟩)
    · refine ⟨fun ent fp' h => ?_, fun hno => absurd hn (hno n), fun m hmem _ hno => ?_⟩
      · obtain ⟨-, w', m, heq, hwakeup, hmax, -⟩ := entOfTokens_ok (hok h)
        obtain ⟨-, heq⟩ := List.cons.inj heq
        obtain ⟨rfl, rfl⟩ := List.cons.inj heq
        rw [hn.atoi_eq] at hwakeup
        refine ⟨hwakeup ▸ hn, m, rfl, ?_⟩
        rcases hvalid m rfl with ⟨k, hk⟩ | hneg
        · rw [hk.atoi_eq] at hmax
          exact hmax ▸ hk
        · by_cases hk : ∃ k, MaxProcToken m k
          · obtain ⟨k, hk⟩ := hk
            rw [hk.atoi_eq] at hmax
            exact hmax ▸ hk
          · have hpos := ent.maxProc.property
            rw [hmax, hm m (not_exists.1 hk)] at hpos
            exact absurd (atoi_neg_iff.2 hneg) (not_lt.2 hpos)
      · have hneg := (hvalid m hmem).resolve_left (not_exists.2 hno)
        rw [hread]
        rcases entOfTokens_maxProc hn.atoi_nonneg with ⟨m', hm', -, heq⟩ | ⟨hnonneg, -⟩
        · obtain rfl := Option.mem_unique hmem hm'
          rw [heq, hm m hno]
        · have hpos := hnonneg m hmem
          rw [hm m hno] at hpos
          exact absurd (atoi_neg_iff.2 hneg) (not_lt.2 hpos)
    · have hlt : atoi (fieldValue (cstr "0") w) < 0 := by
        rw [hw hno]
        exact atoi_neg_iff.2 hneg
      refine ⟨fun ent fp' h => ?_, fun _ => ?_, fun m _ hsome => absurd hsome (not_exists.2 hno)⟩
      · have heq := hok h
        rw [entOfTokens_wakeup hlt] at heq
        cases heq
      · rw [hread, entOfTokens_wakeup hlt, hw hno]

/-- A line with two numbers. -/
theorem fields_validated_iff_smtp : FieldsValidated (0, 0) (cstr "smtp inet 60? 10 smtpd\n")
    (cstr "60?") [cstr "10", cstr "smtpd"] := by
  let fp := cstr "smtp inet 60? 10 smtpd\n"
  have hs : skipLines fp.length fp = some ⟨fp, cstr "smtp", cstr "inet 60? 10 smtpd\n", []⟩ := rfl
  refine (fields_validated_iff (0, 0) hs (by decide)).2 (.inl ⟨⟨60, ?_⟩, fun m hm => .inl ⟨10, ?_⟩⟩)
  · exact .inr ⟨cstr "60", ⟨by decide, by decide⟩, .inr rfl, rfl, by decide⟩
  · obtain rfl := Option.some.inj hm
    exact .inr ⟨⟨by decide, by decide⟩, rfl, by decide⟩

/-- A word for the number of processes is accepted, and stands for no limit. -/
theorem not_fields_validated :
    (∃ ent fp', readMasterEnt (0, 0) (cstr "smtp inet 0 abc smtpd\n") = .ok (some (ent, fp')) ∧
      ent.maxProc.val = 0) ∧
    (∀ n, ¬MaxProcToken (cstr "abc") n) ∧
    ¬FieldsValidated (0, 0) (cstr "smtp inet 0 abc smtpd\n") (cstr "0")
      [cstr "abc", cstr "smtpd"] := by
  have hrun : (readMasterEnt (0, 0) (cstr "smtp inet 0 abc smtpd\n")).toOption.any (fun r =>
      r.any fun r => r.1.maxProc.val = 0) = true := by
    decide +kernel
  obtain ⟨o, ho, hobs⟩ := (Option.any_eq_true _ _).1 hrun
  obtain ⟨⟨ent, fp'⟩, rfl, hzero⟩ := (Option.any_eq_true _ _).1 hobs
  have hno : ∀ n, ¬MaxProcToken (cstr "abc") n := by
    rintro n (⟨hdash, -⟩ | ⟨hnum, -⟩)
    · exact absurd hdash (by decide)
    · exact absurd (hnum.2 _ List.mem_cons_self) (by decide)
  refine ⟨⟨ent, fp', toOption_eq_some ho, of_decide_eq_true hzero⟩, hno, fun h => ?_⟩
  obtain ⟨-, m, hm, hmax⟩ := h.1 ent fp' (toOption_eq_some ho)
  obtain rfl := Option.some.inj hm
  exact hno _ hmax

/-! ## The condition for the wake-up -/

/-- A byte of memory at an offset from the line buffer. -/
def byteAt (before : BitVec 8 × BitVec 8) (buf : Bytes) : ℤ → BitVec 8
  | .ofNat i => buf.getD i 0
  | .negSucc 0 => before.1
  | .negSucc _ => before.2

/-- The offset in `buf[*buf ? -2 : -1]`. -/
def condwakeOffset (before : BitVec 8 × BitVec 8) (buf : Bytes) : ℤ :=
  if byteAt before buf 0 ≠ 0 then -2 else -1

/-- The offsets at which the line buffer is read to find out whether the wake-up is conditional. -/
def condwakeReads (before : BitVec 8 × BitVec 8) (buf : Bytes) (wakeupTime : ℤ) : List ℤ :=
  if 0 < wakeupTime then [0, condwakeOffset before buf] else []

/-- The flag is set if and only if there is a wake-up and its field ends with a question mark, and
what is read to find out lies inside the buffer. -/
def CondwakeExact (before : BitVec 8 × BitVec 8) (buf w : Bytes) (ent : EntLine) : Prop :=
  (ent.condwake ↔ 0 < ent.wakeupTime.val ∧ w.getLast? = some (BitVec.ofNat 8 '?'.toNat)) ∧
    ∀ i ∈ condwakeReads before buf ent.wakeupTime.val, 0 ≤ i ∧ i < 1024

/-- The flag is what is read at the last of the offsets. -/
theorem condwake_eq {before : BitVec 8 × BitVec 8} {buf cp : Bytes} {toks : List Bytes}
    {ent : EntLine} (h : entOfTokens before (buf.headD 0) cp toks = .ok ent) :
    ent.condwake = (condwakeReads before buf ent.wakeupTime.val).getLast?.any fun i =>
      byteAt before buf i = BitVec.ofNat 8 '?'.toNat := by
  obtain ⟨-, w, m, -, -, -, hflag⟩ := entOfTokens_ok h
  have hhead : byteAt before buf 0 = buf.headD 0 := by
    cases buf <;> rfl
  have hoffset : byteAt before buf (condwakeOffset before buf) =
      if buf.headD 0 ≠ 0 then before.2 else before.1 := by
    rw [condwakeOffset, hhead]
    split <;> rfl
  rw [hflag, ← hoffset, condwakeReads]
  by_cases hpos : 0 < ent.wakeupTime.val <;> simp [hpos]

/-- The condition for the wake-up is what is read at the last of the offsets. It is right if and
only if the number that its field begins with is zero as an `int`. -/
theorem condwake_exact_iff {before : BitVec 8 × BitVec 8} {fp fp' : Bytes} {ent : EntLine}
    (h : readMasterEnt before fp = .ok (some (ent, fp'))) :
    ∃ s w rest, skipLines fp.length fp = some s ∧
      strtokAll masterBlanks s.bufp = masterXportNameInet :: w :: rest ∧
      (ent.condwake = (condwakeReads before s.buf ent.wakeupTime.val).getLast?.any fun i =>
        byteAt before s.buf i = BitVec.ofNat 8 '?'.toNat) ∧
      (CondwakeExact before s.buf w ent ↔ strtol w % 2 ^ 32 = 0) := by
  cases hs : skipLines fp.length fp with
  | none =>
    simp only [readMasterEnt, hs] at h
    cases h
  | some s =>
    have hent := readMasterEnt_ok hs h
    obtain ⟨-, w, m, htoks, hwakeup, -, hflag⟩ := entOfTokens_ok hent
    refine ⟨s, w, _, rfl, htoks, condwake_eq hent, ?_⟩
    have hzero : ent.wakeupTime.val = 0 ↔ strtol w % 2 ^ 32 = 0 := by
      rw [hwakeup]
      by_cases hw : w = cstr "-"
      · subst hw
        decide
      · rw [fieldValue_of_ne hw, atoi, intOf]
        omega
    rw [← hzero]
    have hpos := ent.wakeupTime.property
    constructor
    · rintro ⟨-, hreads⟩
      by_contra hne
      have hmem : condwakeOffset before s.buf ∈
          condwakeReads before s.buf ent.wakeupTime.val := by
        rw [condwakeReads, if_pos (by omega)]
        simp
      have hle := (hreads _ hmem).1
      unfold condwakeOffset at hle
      split at hle <;> omega
    · intro hwake
      refine ⟨?_, fun i hi => ?_⟩
      · simp [hflag, hwake]
      · rw [condwakeReads, if_neg (by omega)] at hi
        cases hi

/-- Without a wake-up the condition is right, and nothing is read for it. -/
theorem condwake_exact_iff_smtp : ∃ ent fp' s,
    readMasterEnt (0, 0) (cstr "smtp inet 0? 1 smtpd\n") = .ok (some (ent, fp')) ∧
    skipLines 21 (cstr "smtp inet 0? 1 smtpd\n") = some s ∧ ent.condwake = false ∧
    CondwakeExact (0, 0) s.buf (cstr "0?") ent := by
  have hrun : (readMasterEnt (0, 0) (cstr "smtp inet 0? 1 smtpd\n")).toOption.any
      (fun r => r.any fun r => !r.1.condwake) = true := by
    decide +kernel
  have hskip : (skipLines 21 (cstr "smtp inet 0? 1 smtpd\n")).all fun s =>
      strtokAll masterBlanks s.bufp =
        [masterXportNameInet, cstr "0?", cstr "1", cstr "smtpd"] := by
    decide +kernel
  obtain ⟨o, ho, hobs⟩ := (Option.any_eq_true _ _).1 hrun
  obtain ⟨⟨ent, fp'⟩, rfl, hflag⟩ := (Option.any_eq_true _ _).1 hobs
  obtain ⟨s, w, rest, hs, htoks, -, hiff⟩ := condwake_exact_iff (toOption_eq_some ho)
  have hw : w = cstr "0?" := by
    have hall := of_decide_eq_true ((Option.all_eq_true _ _).1 hskip s hs)
    rw [htoks] at hall
    exact (List.cons.inj (List.cons.inj hall).2).1
  subst hw
  exact ⟨ent, fp', s, toOption_eq_some ho, hs, by simpa using hflag, hiff.2 (by decide)⟩

/-- The question mark behind a number of seconds is not seen, and one in front of the line buffer
is taken for it. -/
theorem not_condwake_exact :
    (∃ ent fp', readMasterEnt (0, 0) (cstr "smtp inet 60? 1 smtpd\n") = .ok (some (ent, fp')) ∧
      ent.wakeupTime.val = 60 ∧ ent.condwake = false ∧
      ¬CondwakeExact (0, 0) (cstr "smtp inet 60? 1 smtpd\n") (cstr "60?") ent) ∧
    ∃ ent fp', readMasterEnt (0, BitVec.ofNat 8 '?'.toNat) (cstr "smtp inet 60 1 smtpd\n") =
      .ok (some (ent, fp')) ∧ ent.condwake = true := by
  have hrun₁ : (readMasterEnt (0, 0) (cstr "smtp inet 60? 1 smtpd\n")).toOption.any (fun r =>
      r.any fun r => r.1.wakeupTime.val = 60 ∧ r.1.condwake = false) = true := by
    decide +kernel
  have hrun₂ : (readMasterEnt (0, BitVec.ofNat 8 '?'.toNat)
      (cstr "smtp inet 60 1 smtpd\n")).toOption.any (fun r => r.any fun r => r.1.condwake) =
        true := by
    decide +kernel
  obtain ⟨o₁, ho₁, hobs₁⟩ := (Option.any_eq_true _ _).1 hrun₁
  obtain ⟨⟨ent₁, fp₁⟩, rfl, hobs₁⟩ := (Option.any_eq_true _ _).1 hobs₁
  obtain ⟨hwakeup, hflag⟩ := of_decide_eq_true hobs₁
  simp only at hwakeup hflag
  obtain ⟨o₂, ho₂, hobs₂⟩ := (Option.any_eq_true _ _).1 hrun₂
  obtain ⟨⟨ent₂, fp₂⟩, rfl, hobs₂⟩ := (Option.any_eq_true _ _).1 hobs₂
  refine ⟨⟨ent₁, fp₁, toOption_eq_some ho₁, hwakeup, hflag, fun h => ?_⟩, ent₂, fp₂,
    toOption_eq_some ho₂, hobs₂⟩
  have hset := h.1.2 ⟨by omega, by decide⟩
  rw [hflag] at hset
  cases hset

end Nowra
