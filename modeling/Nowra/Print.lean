import Nowra.Callbacks
import Nowra.Sprintf

/-!
# Formatted output

`vbuf_print.c` : `vbuf_print` copies ordinary text to a buffer, and takes each directive off the
format string into a string of its own, with the decimal form of an argument for each `*`. Strings
are copied if it seems that nothing has to be done to them. The rest is left to `sprintf`, after a
request for space.

The callbacks of the buffer are parameters, as is what `sprintf` makes of a floating-point number.
Warnings are not modelled : they are formatted by the C library, in a buffer of their own.
-/

namespace Nowra

/-- `INT_SPACE` -/
def intSpace : ℕ := 8 * 8 / 2

/-- `DBL_SPACE` -/
def dblSpace : ℕ := 8 * 8 / 2 + 308

/-- `PTR_SPACE` -/
def ptrSpace : ℕ := 8 * 8 / 2

/-- A callback that reserves space. It returns whether it failed. -/
abbrev SpaceFn (σ : Type) := VbufEnv σ → ℕ → Except Fault (Bool × VbufEnv σ)

/-- What comes from the C library. -/
structure Libc where
  /-- `sprintf` of a floating-point number. -/
  sprintfDouble : Bytes → BitVec 64 → Option Bytes
  /-- `strerror(errno)` -/
  strerror : Bytes

/-- `sprintf` -/
def Libc.sprintf (libc : Libc) (format : Bytes) : VaArg → Option Bytes
  | .double x => libc.sprintfDouble format x
  | arg => Nowra.sprintf format arg

/-! ## Arguments -/

/-- `va_arg(ap, int)` -/
def vaInt : List VaArg → Except Fault (BitVec 32 × List VaArg)
  | .int n :: ap => pure (n, ap)
  | _ => throw .outside

/-- `va_arg(ap, long)` -/
def vaLong : List VaArg → Except Fault (BitVec 64 × List VaArg)
  | .long n :: ap => pure (n, ap)
  | _ => throw .outside

/-- `va_arg(ap, double)` -/
def vaDouble : List VaArg → Except Fault (BitVec 64 × List VaArg)
  | .double x :: ap => pure (x, ap)
  | _ => throw .outside

/-- `va_arg(ap, char *)` of a string. -/
def vaStr : List VaArg → Except Fault (Bytes × List VaArg)
  | .str s :: ap => pure (s, ap)
  | _ => throw .outside

/-- `va_arg(ap, char *)` of an address. -/
def vaPtr : List VaArg → Except Fault (BitVec 64 × List VaArg)
  | .ptr p :: ap => pure (p, ap)
  | _ => throw .outside

/-! ## Taking a directive off the format -/

/-- `VSTRING_ADDNUM` -/
def vstringAddnum (vp : Vbuf) (n : BitVec 32) : Except Fault Vbuf := do
  let vp ← vstringBufSpace vp intSpace
  let data ← storeAt vp.data vp.ptr (fmtInt n.toInt ++ [0])
  pure (vbufSkip { vp with data := data })

/-- `VSTRING_STR`, up to the null byte. -/
def vstringStr (vp : Vbuf) : Bytes := vp.data.takeWhile (· ≠ 0)

/-- A character that can be there. Returns whether it is. -/
def scanChar (fmt : Vbuf) (cp : Bytes) (c : Char) : Except Fault (Bool × Vbuf × Bytes) :=
  match cp with
  | [] => throw .outside
  | ch :: rest =>
    if ch = byte c then do pure (true, ← vstringAddch fmt ch, rest) else pure (false, fmt, cp)

/-- The loop over digits. -/
def scanDigits : ℤ → Vbuf → Bytes → Except Fault (ℤ × Vbuf × Bytes)
  | _, _, [] => throw .outside
  | n, fmt, ch :: cp =>
    if isDigit ch then do
      scanDigits (intOf (n * 10 + ch.toNat - 48)) (← vstringAddch fmt ch) cp
    else pure (n, fmt, ch :: cp)

/-- A field width or a precision. A negative one is taken for zero. -/
def scanNum (fmt : Vbuf) (ap : List VaArg) (cp : Bytes) :
    Except Fault (ℤ × Vbuf × List VaArg × Bytes) := do
  let (n, fmt, ap, cp) ← (match cp with
    | [] => throw .outside
    | ch :: rest =>
      if ch = byte '*' then do
        let (n, ap) ← vaInt ap
        pure (n.toInt, ← vstringAddnum fmt n, ap, rest)
      else do
        let (n, fmt, cp) ← scanDigits 0 fmt cp
        pure (n, fmt, ap, cp))
  pure (if n < 0 then 0 else n, fmt, ap, cp)

/-- The type of a directive, nothing at a premature end. -/
def scanType (fmt : Vbuf) (cp : Bytes) : Except Fault (Option (BitVec 8) × Vbuf × Bytes) :=
  match cp with
  | [] => throw .outside
  | ch :: rest =>
    if ch = 0 then pure (none, fmt, cp)
    else do pure (some ch, ← vstringTerminate (← vstringAddch fmt ch), rest)

/-- What `vbuf_print` knows of a directive. -/
structure Conversion where
  type : BitVec 8
  width : ℤ
  prec : ℤ
  longFlag : Bool

/-- Take a directive off the format at `cp`, into `fmt`. Returns nothing at a premature end. -/
def scanDirective (fmt : Vbuf) (ap : List VaArg) (cp : Bytes) :
    Except Fault (Option Conversion × Vbuf × List VaArg × Bytes) := do
  let fmt := vstringReset fmt
  let (_, fmt, cp) ← scanChar fmt cp '%'
  let (_, fmt, cp) ← scanChar fmt cp '-'
  let (_, fmt, cp) ← scanChar fmt cp '+'
  let (_, fmt, cp) ← scanChar fmt cp '0'
  let (width, fmt, ap, cp) ← scanNum fmt ap cp
  let (_, fmt, cp) ← scanChar fmt cp '.'
  let (prec, fmt, ap, cp) ← scanNum fmt ap cp
  let (longFlag, fmt, cp) ← scanChar fmt cp 'l'
  let (type, fmt, cp) ← scanType fmt cp
  pure (type.map fun ch => ⟨ch, width, prec, longFlag⟩, fmt, ap, cp)

/-! ## Carrying it out -/

/-- Whether a string is left to `sprintf`. -/
def strSlow (c : Conversion) (s : Bytes) : Except Fault Bool :=
  if c.prec > 0 then pure true
  else if c.width > 0 then
    if 0 ∈ s then pure (c.width > (s.takeWhile (· ≠ 0)).length) else throw .outside
  else pure false

/-- `(width > prec ? width : prec) + n` -/
def Conversion.reserved (c : Conversion) (n : ℕ) : ℕ :=
  sizeTOf ((if c.width > c.prec then c.width else c.prec) + n)

section

variable {σ : Type} (libc : Libc) (put : VbufFn σ) (space : SpaceFn σ)

/-- `VBUF_STRCAT`. A character that is not stored is lost. -/
def vbufStrcat (b : VbufEnv σ) : Bytes → Except Fault (VbufEnv σ)
  | [] => throw .outside
  | c :: s =>
    if c = 0 then pure b
    else do
      let (_, b) ← b.vbufPut put 32 c
      vbufStrcat b s

/-- `sprintf` to the position of a buffer, and `VBUF_SKIP`. -/
def sprintfSkip (b : VbufEnv σ) (fmt : Bytes) (arg : VaArg) : Except Fault (VbufEnv σ) :=
  match libc.sprintf fmt arg with
  | none => throw .outside
  | some out => do
    let data ← storeAt b.bp.data b.bp.ptr (out ++ [0])
    pure { b with bp := vbufSkip { b.bp with data := data } }

/-- Carry out a directive whose text is `fmt`. Returns whether there was no space. -/
def printConversion (fmt : Bytes) (c : Conversion) (b : VbufEnv σ) (ap : List VaArg) :
    Except Fault (Bool × VbufEnv σ × List VaArg) :=
  if c.type = byte 's' then do
    let (s, ap) ← vaStr ap
    if ← strSlow c s then
      let (failed, b) ← space b (c.reserved intSpace)
      if failed then pure (true, b, ap)
      else pure (false, ← sprintfSkip libc b fmt (.str s), ap)
    else pure (false, ← vbufStrcat put b s, ap)
  else if c.type ∈ cstr "cduoxX" then do
    let (failed, b) ← space b (c.reserved intSpace)
    if failed then pure (true, b, ap)
    else if c.longFlag then
      let (n, ap) ← vaLong ap
      pure (false, ← sprintfSkip libc b fmt (.long n), ap)
    else
      let (n, ap) ← vaInt ap
      pure (false, ← sprintfSkip libc b fmt (.int n), ap)
  else if c.type ∈ cstr "efg" then do
    let (failed, b) ← space b (c.reserved dblSpace)
    if failed then pure (true, b, ap)
    else
      let (x, ap) ← vaDouble ap
      pure (false, ← sprintfSkip libc b fmt (.double x), ap)
  else if c.type = byte 'm' then do
    pure (false, ← vbufStrcat put b (libc.strerror ++ [0]), ap)
  else if c.type = byte 'p' then do
    let (failed, b) ← space b (c.reserved ptrSpace)
    if failed then pure (true, b, ap)
    else
      let (p, ap) ← vaPtr ap
      pure (false, ← sprintfSkip libc b fmt (.ptr p), ap)
  else throw (.panic (.unknownFormatType c.type))

/-- A buffer that is printed to, the string for directives and the arguments that are left. -/
structure PrintState (σ : Type) where
  b : VbufEnv σ
  fmt : Vbuf
  ap : List VaArg

/-- The loop over the format, with as many turns as it has bytes. -/
def vbufPrintLoop : ℕ → PrintState σ → Bytes → Except Fault (PrintState σ)
  | 0, _, _ => throw .outside
  | turns + 1, st, cp =>
    match cp with
    | [] => throw .outside
    | ch :: rest =>
      if ch = 0 then pure st
      else if ch ≠ byte '%' then do
        let (_, b) ← st.b.vbufPut put 32 ch
        vbufPrintLoop turns { st with b := b } rest
      else
        match rest with
        | [] => throw .outside
        | next :: rest =>
          if next = byte '%' then do
            let (_, b) ← st.b.vbufPut put 32 ch
            vbufPrintLoop turns { st with b := b } rest
          else do
            let (c, fmt, ap, cp) ← scanDirective st.fmt st.ap cp
            match c with
            | none => pure ⟨st.b, fmt, ap⟩
            | some c => do
              let (failed, b, ap) ← printConversion libc put space (vstringStr fmt) c st.b ap
              if failed then pure ⟨b, fmt, ap⟩ else vbufPrintLoop turns ⟨b, fmt, ap⟩ cp

/-- Print to a buffer. The string for directives is made by the first call, and kept. -/
def vbufPrint (fmt : Option Vbuf) (b : VbufEnv σ) (format : Bytes) (ap : List VaArg) :
    Except Fault (PrintState σ) := do
  let fmt ← (match fmt with
    | none => vstringAlloc intSpace
    | some fmt => pure fmt)
  vbufPrintLoop libc put space format.length ⟨b, fmt, ap⟩ format

end

/-- `vstring_buf_space` -/
def vstringBufSpaceFn : SpaceFn Unit := fun b len => do
  let bp ← vstringBufSpace b.bp len
  pure (false, ⟨bp, b.env⟩)

/-- Print to a string. -/
def vstringVsprintf (libc : Libc) (fmt : Option Vbuf) (vp : Vbuf) (format : Bytes)
    (ap : List VaArg) : Except Fault (PrintState Unit) := do
  let st ← vbufPrint libc vstringBufPutReady vstringBufSpaceFn fmt ⟨vstringReset vp, ()⟩ format ap
  pure { st with b := { st.b with bp := ← vstringTerminate st.b.bp } }

end Nowra
