import Nowra.Pieces

/-!
# Exported and imported strings

A `VSTRING` may be exported to a bare string, and a bare string imported to a `VSTRING`
(`vstring.c`). `vstring_alloc` sets the callbacks of the buffer, and `vstring_import` does not : it
leaves what `mymalloc` has filled the block with. A call of that leaves the program.

The import of an exported string has its contents, and room for as many bytes and the null byte
(`import_export`). As long as the room is enough, the two are in step (`use_follows`). Then they
stay so if and only if no use needs a callback, which is `VstringUse.AllInPlace` : the string never
becomes longer than it was, nothing is left to `sprintf`, and there is no `memcpy` or `memcat`
(`import_export_iff`). A single byte more is too much (`not_import_export`).
-/

namespace Nowra

/-! ## Strings with their callbacks -/

/-- The callbacks of a `VSTRING` : those that `vstring_alloc` sets, or what `mymalloc` fills a new
block with. A call of that leaves the program. -/
inductive VstringFns
  | vstring
  | filler
  deriving DecidableEq

/-- A `VSTRING`. -/
structure Vstring where
  vbuf : Vbuf
  fns : VstringFns

namespace VstringFns

variable (fns : VstringFns)

/-- `put_ready` -/
def putReady : VbufFn Unit := fun b =>
  match fns with
  | .vstring => vstringBufPutReady b
  | .filler => throw .outside

/-- `space` -/
def space : SpaceFn Unit := fun b len =>
  match fns with
  | .vstring => vstringBufSpaceFn b len
  | .filler => throw .outside

/-- `VSTRING_ADDCH` -/
def addch (vp : Vbuf) (c : BitVec 8) : Except Fault Vbuf := do
  let (_, b) ← VbufEnv.vbufPut fns.putReady 32 ⟨vp, ()⟩ c
  pure b.bp

/-- `VSTRING_SPACE` -/
def reserve (vp : Vbuf) (len : ℕ) : Except Fault Vbuf := do
  let (_, b) ← fns.space ⟨vp, ()⟩ len
  pure b.bp

/-- `VSTRING_TERMINATE` -/
def terminate (vp : Vbuf) : Except Fault Vbuf := do
  let vp ← (if vp.cnt = 0 then fns.reserve vp 1 else pure vp)
  let data ← storeAt vp.data vp.ptr [0]
  pure { vp with data := data }

/-- The loop over a string, which ends at its null byte. -/
def puts (vp : Vbuf) : Bytes → Except Fault Vbuf
  | [] => throw .outside
  | c :: src => if c = 0 then pure vp else do puts (← fns.addch vp c) src

/-- The loop over a string that is limited to `len` bytes. -/
def putn (vp : Vbuf) : Bytes → ℤ → Except Fault Vbuf
  | [], len => if len > 0 then throw .outside else pure vp
  | c :: src, len =>
    if len > 0 ∧ c ≠ 0 then do putn (← fns.addch vp c) src (len - 1) else pure vp

/-- What a call does. -/
def exec (vp : Vbuf) : VstringOp → Except Fault Vbuf
  | .strcpy src => do fns.terminate (← fns.puts (vstringReset vp) src)
  | .strncpy src len => do fns.terminate (← fns.putn (vstringReset vp) src len)
  | .strcat src => do fns.terminate (← fns.puts vp src)
  | .strncat src len => do fns.terminate (← fns.putn vp src len)
  | .memcpy src len => do
    let vp ← fns.reserve (vstringReset vp) (sizeTOf len)
    let data ← storeAt vp.data 0 (← memRead src len)
    pure (vstringAtOffset { vp with data := data } len)
  | .memcat src len => do
    let vp ← fns.reserve vp (sizeTOf len)
    let data ← storeAt vp.data vp.ptr (← memRead src len)
    pure (vstringAtOffset { vp with data := data } (len + vp.ptr))
  | .truncate len => vstringTruncate vp len

end VstringFns

/-- A use of a `VSTRING`. A format has no null byte but the one behind it. -/
inductive VstringUse
  | write (op : VstringOp)
  | sprintf (format : {s : Bytes // 0 ∉ s}) (ap : List VaArg)

/-- What is done with a `VSTRING` in the end. -/
inductive VstringEnd
  | kept
  | exported
  | freed

namespace Vstring

/-- The bytes of a `VSTRING`. -/
def contents (vp : Vstring) : Bytes := vp.vbuf.data.take vp.vbuf.ptr

/-- Use a `VSTRING`. The string for directives is kept from use to use. -/
def exec (libc : Libc) (fmt : Option Vbuf) (vp : Vstring) :
    VstringUse → Except Fault (Option Vbuf × Vstring)
  | .write op => do
    let vbuf ← vp.fns.exec vp.vbuf op
    pure (fmt, { vp with vbuf := vbuf })
  | .sprintf format ap => do
    let st ← vbufPrint libc vp.fns.putReady vp.fns.space fmt ⟨vstringReset vp.vbuf, ()⟩
      (format.1 ++ [0]) ap
    let vbuf ← vp.fns.terminate st.b.bp
    pure (some st.fmt, { vp with vbuf := vbuf })

end Vstring

/-- `vstring_export` -/
def vstringExport (vp : Vstring) : Bytes := vp.vbuf.data

/-- `vstring_import`. It does not set the callbacks. -/
def vstringImport (str : Bytes) : Except Fault Vstring :=
  if 0 ∈ str then
    let len := intOf (str.takeWhile (· ≠ 0)).length
    pure ⟨vstringAtOffset ⟨str, sizeTOf (len + 1), 0, 0⟩ len, .filler⟩
  else throw .outside

namespace Vstring

/-- What there is in the end : the bytes of the `VSTRING`, those of the exported string, or none. -/
def finish (vp : Vstring) : VstringEnd → Except Fault Bytes
  | .kept => pure vp.contents
  | .exported =>
    if 0 ∈ vstringExport vp then pure ((vstringExport vp).takeWhile (· ≠ 0)) else throw .outside
  | .freed => pure []

/-- Use a `VSTRING` again and again. -/
def execAll (libc : Libc) (fmt : Option Vbuf) (vp : Vstring) :
    List VstringUse → Except Fault (Option Vbuf × Vstring)
  | [] => pure (fmt, vp)
  | use :: uses => do
    let (fmt, vp) ← vp.exec libc fmt use
    execAll libc fmt vp uses

/-- What there is after the uses of a `VSTRING`. -/
def run (libc : Libc) (fmt : Option Vbuf) (vp : Vstring) (uses : List VstringUse)
    (last : VstringEnd) : Except Fault Bytes := do
  let (_, vp) ← vp.execAll libc fmt uses
  vp.finish last

end Vstring

/-! ## A string that was allocated -/

namespace VstringUse

/-- A use of a string that was allocated, with the calls of `vstring.c`. -/
def exec (libc : Libc) (fmt : Option Vbuf) (vp : Vbuf) :
    VstringUse → Except Fault (Option Vbuf × Vbuf)
  | .write op => do
    let vp ← op.exec vp
    pure (fmt, vp)
  | .sprintf format ap => do
    let st ← vstringVsprintf libc fmt vp (format.1 ++ [0]) ap
    pure (some st.fmt, st.b.bp)

def execAll (libc : Libc) (fmt : Option Vbuf) (vp : Vbuf) :
    List VstringUse → Except Fault (Option Vbuf × Vbuf)
  | [] => pure (fmt, vp)
  | use :: uses => do
    let (fmt, vp) ← use.exec libc fmt vp
    execAll libc fmt vp uses

end VstringUse

namespace VstringFns

theorem vstring_addch (vp : Vbuf) (c : BitVec 8) : vstring.addch vp c = vstringAddch vp c := by
  have hput : ∀ (turns : ℕ) (vp : Vbuf),
      (VbufEnv.vbufPut vstring.putReady turns ⟨vp, ()⟩ c >>= fun r => pure r.2.bp) =
        vbufPut turns vp c := by
    intro turns
    induction turns with
    | zero =>
      intro vp
      unfold VbufEnv.vbufPut vbufPut
      split
      · rw [bind_assoc]
        rfl
      · rfl
    | succ turns ih =>
      intro vp
      unfold VbufEnv.vbufPut vbufPut
      split
      · rw [bind_assoc]
        rfl
      · simp only [putReady, vstringBufPutReady, bind_assoc, pure_bind, Bool.false_eq_true,
          if_false, ih]
  exact hput 32 vp

theorem vstring_reserve (vp : Vbuf) (len : ℕ) :
    vstring.reserve vp len = vstringBufSpace vp len := by
  simp only [reserve, space, vstringBufSpaceFn, bind_assoc, pure_bind, bind_pure]

theorem vstring_terminate (vp : Vbuf) : vstring.terminate vp = vstringTerminate vp := by
  simp only [terminate, vstringTerminate, vstring_reserve]

theorem vstring_puts (vp : Vbuf) (src : Bytes) : vstring.puts vp src = vstringPuts vp src := by
  induction src generalizing vp with
  | nil => rfl
  | cons c src ih => simp only [puts, vstringPuts, vstring_addch, ih]

theorem vstring_putn (vp : Vbuf) (src : Bytes) (len : ℤ) :
    vstring.putn vp src len = vstringPutn vp src len := by
  induction src generalizing vp len with
  | nil => rfl
  | cons c src ih => simp only [putn, vstringPutn, vstring_addch, ih]

/-- The calls on a string that was allocated are those of `vstring.c`. -/
theorem vstring_exec (vp : Vbuf) (op : VstringOp) : vstring.exec vp op = op.exec vp := by
  cases op with
  | strcpy src =>
    simp only [exec, VstringOp.exec, vstringStrcpy, vstring_puts, vstring_terminate]
  | strncpy src len =>
    simp only [exec, VstringOp.exec, vstringStrncpy, vstring_putn, vstring_terminate]
  | strcat src =>
    simp only [exec, VstringOp.exec, vstringStrcat, vstring_puts, vstring_terminate]
  | strncat src len =>
    simp only [exec, VstringOp.exec, vstringStrncat, vstring_putn, vstring_terminate]
  | memcpy src len => simp only [exec, VstringOp.exec, vstringMemcpy, vstring_reserve]
  | memcat src len => simp only [exec, VstringOp.exec, vstringMemcat, vstring_reserve]
  | truncate len => rfl

/-- So are the uses, with `vstring_vsprintf`. -/
theorem vstring_use (libc : Libc) (fmt : Option Vbuf) (vp : Vbuf) (use : VstringUse) :
    Vstring.exec libc fmt ⟨vp, vstring⟩ use =
      (use.exec libc fmt vp >>= fun r => pure (r.1, ⟨r.2, vstring⟩)) := by
  cases use with
  | write op => simp only [Vstring.exec, VstringUse.exec, vstring_exec, bind_assoc, pure_bind]
  | sprintf format ap =>
    unfold Vstring.exec VstringUse.exec vstringVsprintf
    rw [bind_assoc, bind_assoc]
    refine bind_congr fun st => ?_
    rw [vstring_terminate, bind_assoc]
    rfl

theorem vstring_uses (libc : Libc) (fmt : Option Vbuf) (vp : Vbuf) (uses : List VstringUse) :
    Vstring.execAll libc fmt ⟨vp, vstring⟩ uses =
      (VstringUse.execAll libc fmt vp uses >>= fun r => pure (r.1, ⟨r.2, vstring⟩)) := by
  induction uses generalizing fmt vp with
  | nil => rfl
  | cons use uses ih =>
    unfold Vstring.execAll VstringUse.execAll
    rw [vstring_use, bind_assoc, bind_assoc]
    exact bind_congr fun r => ih r.1 r.2

end VstringFns

/-! ## An imported string and its original -/

/-- The program is left. -/
def IsOutside (e : Fault) : Prop := e = .outside

/-- The imported string `vp` has the block of `vp'` and its position, and the room that the import
saw : `n` bytes and one more. -/
structure Vbuf.InStep (n : ℕ) (vp vp' : Vbuf) : Prop where
  data : vp.data = vp'.data
  ptr : vp.ptr = vp'.ptr
  len : vp.len = n + 1
  room : vp.ptr + vp.cnt = n + 1
  room' : vp'.ptr + vp'.cnt = vp'.len
  len' : n + 1 ≤ vp'.len
  block : vp'.len ≤ vp'.data.length
  small : vp'.len < 2 ^ 31

namespace Vbuf.InStep

variable {n : ℕ} {vp vp' : Vbuf}

theorem cnt_pos (h : vp.InStep n vp') (hcnt : 0 < vp.cnt) : 0 < vp'.cnt := by
  have := h.room
  have := h.room'
  have := h.len'
  have := h.ptr
  omega

theorem reset (h : vp.InStep n vp') : (vstringReset vp).InStep n (vstringReset vp') :=
  ⟨h.data, rfl, h.len, (Nat.zero_add _).trans h.len, Nat.zero_add _, h.len', h.block, h.small⟩

/-- Bytes are stored in both where there is room in the imported string. -/
theorem stored (h : vp.InStep n vp') {bytes : Bytes} (hfit : bytes.length ≤ vp.cnt) :
    storeAt vp.data vp.ptr bytes = .ok (vp.stored bytes).data ∧
      storeAt vp'.data vp'.ptr bytes = .ok (vp'.stored bytes).data ∧
      (vp.stored bytes).InStep n (vp'.stored bytes) := by
  have hroom := h.room
  have hroom' := h.room'
  have hptr := h.ptr
  have hlen := h.len'
  have hblock := h.block
  have hdata := h.data
  have hfit' : vp'.ptr + bytes.length ≤ vp'.data.length := by omega
  refine ⟨Vbuf.storeAt_eq (by rw [hdata]; omega), Vbuf.storeAt_eq hfit', ?_⟩
  have hsame := Vbuf.stored_data_length hfit'
  refine ⟨?_, ?_, h.len, ?_, ?_, hlen, hblock.trans hsame.ge, h.small⟩
  · simp only [Vbuf.stored, hdata, hptr]
  · exact congrArg (· + bytes.length) hptr
  · simp only [Vbuf.stored]
    omega
  · simp only [Vbuf.stored]
    omega

end Vbuf.InStep

section

variable {n : ℕ} {vp vp' : Vbuf} {libc : Libc} {fns : VstringFns}

theorem filler_put (b : VbufEnv Unit) (hcnt : b.bp.cnt = 0) (c : BitVec 8) :
    b.vbufPut VstringFns.filler.putReady 32 c = .error .outside := by
  unfold VbufEnv.vbufPut
  rw [if_neg (by omega)]
  rfl

/-- A character is stored in both, or the program is left. -/
theorem put_follows (h : vp.InStep n vp') (c : BitVec 8) :
    Follows IsOutside (VbufEnv.vbufPut VstringFns.filler.putReady 32 ⟨vp, ()⟩ c)
      (VbufEnv.vbufPut fns.putReady 32 ⟨vp', ()⟩ c)
      fun r r' => r.2.bp.InStep n r'.2.bp := by
  rcases Nat.eq_zero_or_pos vp.cnt with hcnt | hcnt
  · exact .of_lost (filler_put ⟨vp, ()⟩ hcnt c) rfl
  · obtain ⟨hst, hst', hnext⟩ := h.stored (show [c].length ≤ vp.cnt from hcnt)
    refine .of_eq (a := (some c, ⟨vp.stored [c], ()⟩)) (b := (some c, ⟨vp'.stored [c], ()⟩)) ?_ ?_
      hnext
    · unfold VbufEnv.vbufPut
      rw [if_pos hcnt]
      exact bind_ok_iff.2 ⟨_, hst, rfl⟩
    · unfold VbufEnv.vbufPut
      rw [if_pos (h.cnt_pos hcnt)]
      exact bind_ok_iff.2 ⟨_, hst', rfl⟩

theorem addch_follows (h : vp.InStep n vp') (c : BitVec 8) :
    Follows IsOutside (VstringFns.filler.addch vp c) (fns.addch vp' c)
      (Vbuf.InStep n) :=
  (put_follows h c).bind fun _ _ hr => .of_eq rfl rfl hr

theorem terminate_follows (h : vp.InStep n vp') :
    Follows IsOutside (VstringFns.filler.terminate vp) (fns.terminate vp')
      (Vbuf.InStep n) := by
  unfold VstringFns.terminate
  rcases Nat.eq_zero_or_pos vp.cnt with hcnt | hcnt
  · refine .of_lost (e := .outside) ?_ rfl
    rw [if_pos hcnt]
    rfl
  · obtain ⟨hst, hst', hnext⟩ := h.stored (show [0].length ≤ vp.cnt from hcnt)
    have hcnt' := h.cnt_pos hcnt
    rw [if_neg (by omega), if_neg (by omega)]
    refine .of_eq (bind_ok_iff.2 ⟨_, rfl, bind_ok_iff.2 ⟨_, hst, rfl⟩⟩)
      (bind_ok_iff.2 ⟨_, rfl, bind_ok_iff.2 ⟨_, hst', rfl⟩⟩) ?_
    exact ⟨hnext.data, h.ptr, h.len, h.room, h.room', h.len', hnext.block, h.small⟩

theorem puts_follows (h : vp.InStep n vp') (src : Bytes) :
    Follows IsOutside (VstringFns.filler.puts vp src) (fns.puts vp' src)
      (Vbuf.InStep n) := by
  induction src generalizing vp vp' with
  | nil => exact .of_error rfl rfl
  | cons c src ih =>
    unfold VstringFns.puts
    split
    · exact .of_eq rfl rfl h
    · exact (addch_follows h c).bind fun _ _ hr => ih hr

theorem putn_follows (h : vp.InStep n vp') (src : Bytes) (len : ℤ) :
    Follows IsOutside (VstringFns.filler.putn vp src len) (fns.putn vp' src len)
      (Vbuf.InStep n) := by
  induction src generalizing vp vp' len with
  | nil =>
    unfold VstringFns.putn
    split
    · exact .of_error rfl rfl
    · exact .of_eq rfl rfl h
  | cons c src ih =>
    unfold VstringFns.putn
    split
    · exact (addch_follows h c).bind fun _ _ hr => ih hr _
    · exact .of_eq rfl rfl h

theorem truncate_follows (h : vp.InStep n vp') (len : ℤ) :
    Follows IsOutside (vstringTruncate vp len) (vstringTruncate vp' len) (Vbuf.InStep n) := by
  have hroom := h.room
  have hroom' := h.room'
  have hlen := h.len
  have hlen' := h.len'
  have hptr := h.ptr
  have hsmall := h.small
  unfold vstringTruncate
  by_cases hneg : len < 0
  · rw [if_pos hneg, if_pos hneg]
    exact .of_error rfl rfl
  · rw [if_neg hneg, if_neg hneg, hptr]
    by_cases hshort : len < vp'.ptr
    · rw [if_pos hshort, if_pos hshort]
      refine .of_eq rfl rfl ⟨h.data, rfl, hlen, ?_, ?_, hlen', h.block, hsmall⟩
      · simp only [vstringAtOffset, sizeTOf]
        omega
      · simp only [vstringAtOffset, sizeTOf]
        omega
    · rw [if_neg hshort, if_neg hshort]
      exact .of_eq rfl rfl h

/-- A call does the same to both, or the program is left. -/
theorem exec_follows (h : vp.InStep n vp') (op : VstringOp) :
    Follows IsOutside (VstringFns.filler.exec vp op) (fns.exec vp' op)
      (Vbuf.InStep n) := by
  cases op with
  | strcpy src => exact (puts_follows h.reset src).bind fun _ _ hr => terminate_follows hr
  | strncpy src len => exact (putn_follows h.reset src len).bind fun _ _ hr => terminate_follows hr
  | strcat src => exact (puts_follows h src).bind fun _ _ hr => terminate_follows hr
  | strncat src len => exact (putn_follows h src len).bind fun _ _ hr => terminate_follows hr
  | memcpy src len => exact .of_lost rfl rfl
  | memcat src len => exact .of_lost rfl rfl
  | truncate len => exact truncate_follows h len

theorem strcat_follows (h : vp.InStep n vp') (s : Bytes) :
    Follows IsOutside (vbufStrcat VstringFns.filler.putReady ⟨vp, ()⟩ s)
      (vbufStrcat fns.putReady ⟨vp', ()⟩ s) fun b b' => b.bp.InStep n b'.bp := by
  induction s generalizing vp vp' with
  | nil => exact .of_error rfl rfl
  | cons c s ih =>
    unfold vbufStrcat
    split
    · exact .of_eq rfl rfl h
    · exact (put_follows h c).bind fun _ _ hr => ih hr

/-- A directive prints the same to both, or the program is left. -/
theorem printConversion_follows (h : vp.InStep n vp') (text : Bytes) (c : Conversion)
    (ap : List VaArg) :
    Follows IsOutside
      (printConversion libc VstringFns.filler.putReady VstringFns.filler.space text c ⟨vp, ()⟩ ap)
      (printConversion libc fns.putReady fns.space text c ⟨vp', ()⟩ ap)
      fun r r' => r.1 = r'.1 ∧ r.2.1.bp.InStep n r'.2.1.bp ∧ r.2.2 = r'.2.2 := by
  have hcopy : ∀ (s : Bytes) (ap : List VaArg), Follows IsOutside
      (vbufStrcat VstringFns.filler.putReady ⟨vp, ()⟩ s >>= fun b => pure (false, b, ap))
      (vbufStrcat fns.putReady ⟨vp', ()⟩ s >>= fun b => pure (false, b, ap))
      fun r r' => r.1 = r'.1 ∧ r.2.1.bp.InStep n r'.2.1.bp ∧ r.2.2 = r'.2.2 := fun s ap =>
    (strcat_follows h s).bind fun _ _ hr => .of_eq rfl rfl ⟨rfl, hr, rfl⟩
  unfold printConversion
  split
  · refine .bind (.refl _) ?_
    rintro ⟨s, ap⟩ r rfl
    refine .bind (.refl _) ?_
    rintro slow r rfl
    cases slow with
    | true => exact .of_lost rfl rfl
    | false => exact hcopy s ap
  split
  · exact .of_lost rfl rfl
  split
  · exact .of_lost rfl rfl
  split
  · exact hcopy _ ap
  split
  · exact .of_lost rfl rfl
  · exact .of_error rfl rfl

/-- The loop does the same to both, and to the string for directives, or the program is left. -/
theorem printLoop_follows (h : vp.InStep n vp') (turns : ℕ) (fmt : Vbuf) (ap : List VaArg)
    (cp : Bytes) :
    Follows IsOutside
      (vbufPrintLoop libc VstringFns.filler.putReady VstringFns.filler.space turns
        ⟨⟨vp, ()⟩, fmt, ap⟩ cp)
      (vbufPrintLoop libc fns.putReady fns.space turns
        ⟨⟨vp', ()⟩, fmt, ap⟩ cp)
      fun st st' => st.b.bp.InStep n st'.b.bp ∧ st.fmt = st'.fmt := by
  induction turns generalizing vp vp' fmt ap cp with
  | zero => exact .of_error rfl rfl
  | succ turns ih =>
    unfold vbufPrintLoop
    cases cp with
    | nil => exact .of_error rfl rfl
    | cons ch rest =>
      simp only
      split
      · exact .of_eq rfl rfl ⟨h, rfl⟩
      split
      · exact (put_follows h ch).bind fun _ _ hr => ih hr fmt ap rest
      cases rest with
      | nil => exact .of_error rfl rfl
      | cons next rest =>
        simp only
        split
        · exact (put_follows h ch).bind fun _ _ hr => ih hr fmt ap rest
        · refine .bind (.refl _) ?_
          rintro ⟨c, fmt, ap, cp⟩ r rfl
          cases c with
          | none => exact .of_eq rfl rfl ⟨h, rfl⟩
          | some c =>
            refine (printConversion_follows h (vstringStr fmt) c ap).bind ?_
            rintro ⟨failed, b, ap⟩ ⟨failed', b', ap'⟩ ⟨hfailed, hb, hap⟩
            simp only at hfailed hb hap ⊢
            subst hfailed hap
            split
            · exact .of_eq rfl rfl ⟨hb, rfl⟩
            · exact ih hb fmt ap cp

theorem print_follows (h : vp.InStep n vp') (fmt : Option Vbuf) (format : Bytes)
    (ap : List VaArg) :
    Follows IsOutside
      (vbufPrint libc VstringFns.filler.putReady VstringFns.filler.space fmt ⟨vp, ()⟩ format ap)
      (vbufPrint libc fns.putReady fns.space fmt ⟨vp', ()⟩ format ap)
      fun st st' => st.b.bp.InStep n st'.b.bp ∧ st.fmt = st'.fmt := by
  unfold vbufPrint
  refine .bind (.refl _) ?_
  rintro fmt fmt' rfl
  exact printLoop_follows h _ fmt ap _

/-- A use does the same to both, or the program is left. -/
theorem use_follows (h : vp.InStep n vp') (fmt : Option Vbuf) (use : VstringUse) :
    Follows IsOutside (Vstring.exec libc fmt ⟨vp, .filler⟩ use)
      (Vstring.exec libc fmt ⟨vp', fns⟩ use) fun r r' =>
        r.1 = r'.1 ∧ r.2.fns = .filler ∧ r'.2.fns = fns ∧ r.2.vbuf.InStep n r'.2.vbuf := by
  cases use with
  | write op => exact (exec_follows h op).bind fun _ _ hr => .of_eq rfl rfl ⟨rfl, rfl, rfl, hr⟩
  | sprintf format ap =>
    refine (print_follows h.reset fmt _ ap).bind fun st st' ⟨hb, hfmt⟩ => ?_
    exact (terminate_follows hb).bind fun _ _ hr =>
      .of_eq rfl rfl ⟨congrArg some hfmt, rfl, rfl, hr⟩

end

/-! ## Uses that need no callback -/

/-- The bytes that are copied, if nothing is left to `sprintf`. -/
def copied : List Piece → Option Bytes
  | [] => some []
  | .copy s :: ps => (copied ps).map (s ++ ·)
  | .call _ _ _ :: _ => none

/-- The call needs no callback in a block for `n` bytes and a null byte. -/
def VstringOp.InPlace (n : ℕ) (s : Bytes) (op : VstringOp) : Prop :=
  match op with
  | .memcpy _ _ | .memcat _ _ => False
  | .truncate _ => True
  | .strcpy _ | .strncpy _ _ | .strcat _ | .strncat _ _ => (op.apply s).length ≤ n

namespace VstringUse

/-- What the use does to the bytes, if nothing is left to `sprintf`. -/
def apply (libc : Libc) (s : Bytes) : VstringUse → Bytes
  | .write op => op.apply s
  | .sprintf format ap =>
    match pieces libc (items format) ap with
    | .ok (ps, _) => (copied ps).getD []
    | .error _ => []

/-- The use needs no callback in a block for `n` bytes and a null byte. -/
def InPlace (libc : Libc) (n : ℕ) (s : Bytes) : VstringUse → Prop
  | .write op => op.InPlace n s
  | .sprintf format ap => ∃ ps rest out, pieces libc (items format) ap = .ok (ps, rest) ∧
      copied ps = some out ∧ out.length ≤ n

/-- None of the uses needs a callback. -/
def AllInPlace (libc : Libc) (n : ℕ) : Bytes → List VstringUse → Prop
  | _, [] => True
  | s, use :: uses => use.InPlace libc n s ∧ AllInPlace libc n (use.apply libc s) uses

end VstringUse

section

variable {vp : Vbuf} {libc : Libc}

theorem Vbuf.stored_room {bytes : Bytes} (hroom : vp.ptr + vp.cnt ≤ vp.data.length)
    (hfit : bytes.length ≤ vp.cnt) :
    (vp.stored bytes).ptr + (vp.stored bytes).cnt ≤ (vp.stored bytes).data.length := by
  rw [Vbuf.stored_data_length (by omega)]
  simp only [Vbuf.stored]
  omega

/-- Bytes are stored where there is room for them. -/
theorem filler_vbufPuts {b : VbufEnv Unit} (hroom : b.bp.ptr + b.bp.cnt ≤ b.bp.data.length)
    (s : Bytes) : vbufPuts VstringFns.filler.putReady b s =
      if s.length ≤ b.bp.cnt then .ok ⟨b.bp.stored s, ()⟩ else .error .outside := by
  induction s generalizing b with
  | nil =>
    have hfit : ([] : Bytes).length ≤ b.bp.cnt := Nat.zero_le _
    rw [if_pos hfit, Vbuf.stored_nil]
    rfl
  | cons c s ih =>
    rw [vbufPuts, List.length_cons]
    rcases Nat.eq_zero_or_pos b.bp.cnt with hcnt | hcnt
    · rw [if_neg (by omega)]
      exact bind_error_iff.2 (.inl (filler_put b hcnt c))
    · have hst : storeAt b.bp.data b.bp.ptr [c] = .ok (b.bp.stored [c]).data :=
        Vbuf.storeAt_eq (by rw [List.length_singleton]; omega)
      have hput : b.vbufPut VstringFns.filler.putReady 32 c =
          pure (some c, ⟨b.bp.stored [c], ()⟩) := by
        unfold VbufEnv.vbufPut
        rw [if_pos hcnt]
        exact bind_ok_iff.2 ⟨_, hst, rfl⟩
      rw [hput, pure_bind]
      simp only
      rw [ih (Vbuf.stored_room hroom (show [c].length ≤ b.bp.cnt from hcnt))]
      by_cases hfit : s.length + 1 ≤ b.bp.cnt
      · have hall : b.bp.stored (c :: s) = (b.bp.stored [c]).stored s :=
          @Vbuf.stored_append _ [c] s (by rw [List.length_singleton]; omega)
        rw [if_pos hfit, hall, if_pos]
        simp only [Vbuf.stored, List.length_singleton]
        omega
      · rw [if_neg hfit, if_neg]
        simp only [Vbuf.stored, List.length_singleton]
        omega

variable {fns : VstringFns}

theorem addch_eq (c : BitVec 8) : fns.addch vp c =
    (vbufPuts fns.putReady ⟨vp, ()⟩ [c] >>= fun b => pure b.bp) := by
  rw [vbufPuts, bind_assoc]
  rfl

theorem vbufPuts_cons {σ : Type} {put : VbufFn σ} (b : VbufEnv σ) (c : BitVec 8) (s : Bytes) :
    vbufPuts put b (c :: s) = vbufPuts put b [c] >>= (vbufPuts put · s) := by
  rw [vbufPuts, vbufPuts, bind_assoc]
  rfl

theorem mem_of_puts {src : Bytes} {vp' : Vbuf} (h : fns.puts vp src = .ok vp') : 0 ∈ src := by
  induction src generalizing vp with
  | nil => cases h
  | cons c src ih =>
    unfold VstringFns.puts at h
    split at h
    · rename_i hc
      exact hc ▸ List.mem_cons_self
    · obtain ⟨vp'', -, h⟩ := bind_ok_iff.1 h
      exact List.mem_cons_of_mem _ (ih h)

/-- The loop over a string stores it. -/
theorem puts_eq {src : Bytes} (h0 : 0 ∈ src) : fns.puts vp src =
    (vbufPuts fns.putReady ⟨vp, ()⟩ (src.takeWhile (· ≠ 0)) >>= fun b => pure b.bp) := by
  induction src generalizing vp with
  | nil => exact absurd h0 List.not_mem_nil
  | cons c src ih =>
    unfold VstringFns.puts
    by_cases hc : c = 0
    · rw [if_pos hc, List.takeWhile_cons_of_neg (by simp [hc])]
      rfl
    · have hrest := (List.mem_cons.1 h0).resolve_left (Ne.symm hc)
      rw [if_neg hc, takeWhile_null_cons hc, vbufPuts_cons, addch_eq, bind_assoc, bind_assoc]
      refine bind_congr fun b => ?_
      rw [pure_bind, ih hrest]

theorem readable_of_putn {src : Bytes} {len : ℤ} {vp' : Vbuf}
    (h : fns.putn vp src len = .ok vp') : 0 ∈ src ∨ len ≤ src.length := by
  induction src generalizing vp len with
  | nil =>
    unfold VstringFns.putn at h
    split at h
    · cases h
    · exact .inr (by simpa using ‹¬len > 0›)
  | cons c src ih =>
    unfold VstringFns.putn at h
    rw [List.length_cons]
    split at h
    · obtain ⟨vp'', -, h⟩ := bind_ok_iff.1 h
      refine (ih h).imp (List.mem_cons_of_mem _) fun hle => ?_
      omega
    · rename_i hno
      by_cases hc : c = 0
      · exact .inl (hc ▸ List.mem_cons_self)
      · refine .inr ?_
        have : ¬len > 0 := fun hlen => hno ⟨hlen, hc⟩
        omega

/-- The loop over a string of limited length stores it. -/
theorem putn_eq {src : Bytes} {len : ℤ} (hread : 0 ∈ src ∨ len ≤ src.length) :
    fns.putn vp src len =
      (vbufPuts fns.putReady ⟨vp, ()⟩ (strPrefix src len.toNat) >>= fun b => pure b.bp) := by
  induction src generalizing vp len with
  | nil =>
    have hlen : ¬len > 0 := by simpa using hread
    unfold VstringFns.putn
    rw [if_neg hlen, strPrefix, List.take_nil]
    rfl
  | cons c src ih =>
    unfold VstringFns.putn
    by_cases hmore : len > 0 ∧ c ≠ 0
    · obtain ⟨len, rfl⟩ : ∃ n : ℕ, len = n + 1 := ⟨(len - 1).toNat, by omega⟩
      have hnat : ((len : ℤ) + 1).toNat = len + 1 := rfl
      have hcons : strPrefix (c :: src) (len + 1) = c :: strPrefix src len := by
        rw [strPrefix, List.take_succ_cons]
        exact takeWhile_null_cons hmore.2 _
      have hread' : 0 ∈ src ∨ (len : ℤ) ≤ src.length := by
        refine hread.imp (fun h0 => (List.mem_cons.1 h0).resolve_left hmore.2.symm) fun hle => ?_
        rw [List.length_cons] at hle
        omega
      rw [if_pos hmore, hnat, hcons, vbufPuts_cons, addch_eq, bind_assoc, bind_assoc]
      refine bind_congr fun b => ?_
      rw [pure_bind, add_sub_cancel_right, ih hread']
      rfl
    · have hnil : strPrefix (c :: src) len.toNat = [] := by
        rw [strPrefix]
        rcases not_and_or.1 hmore with hlen | hc
        · rw [Int.toNat_of_nonpos (by omega)]
          rfl
        · cases len.toNat with
          | zero => rfl
          | succ m => exact List.takeWhile_cons_of_neg (by simpa using hc)
      rw [if_neg hmore, hnil]
      rfl

/-- What is stored in an imported string stays if there is a byte left for the null byte. -/
theorem filler_terminate {n : ℕ} (hroom : vp.ptr + vp.cnt = n + 1) (hblock : n + 1 ≤ vp.data.length)
    {bytes : Bytes} (hfit : bytes.length ≤ vp.cnt) :
    ((vp.data.take vp.ptr ++ bytes).length ≤ n → ∃ vp',
      VstringFns.filler.terminate (vp.stored bytes) = .ok vp' ∧
        vp'.data.take vp'.ptr = vp.data.take vp.ptr ++ bytes) ∧
    (¬(vp.data.take vp.ptr ++ bytes).length ≤ n →
      VstringFns.filler.terminate (vp.stored bytes) = .error .outside) := by
  have hlen : (vp.data.take vp.ptr ++ bytes).length = vp.ptr + bytes.length := by
    rw [List.length_append, List.length_take, Nat.min_eq_left (by omega)]
  have hcnt : (vp.stored bytes).cnt = vp.cnt - bytes.length := rfl
  rw [hlen]
  unfold VstringFns.terminate
  constructor
  · intro hle
    have htake := @Vbuf.stored_take vp bytes (by omega)
    have hnext := Vbuf.stored_room (by omega) hfit
    rw [if_neg (by omega)]
    generalize vp.stored bytes = vp₁ at *
    have hst : storeAt vp₁.data vp₁.ptr [0] = .ok (vp₁.stored [0]).data :=
      Vbuf.storeAt_eq (by rw [List.length_singleton]; omega)
    refine ⟨{ vp₁ with data := (vp₁.stored [0]).data },
      bind_ok_iff.2 ⟨_, rfl, bind_ok_iff.2 ⟨_, hst, rfl⟩⟩, ?_⟩
    rw [← htake, Vbuf.stored, List.append_assoc]
    exact List.take_left' (by rw [List.length_take]; exact Nat.min_eq_left (by omega))
  · intro hle
    rw [if_pos (by omega)]
    rfl

/-- Bytes are written to an imported string if there is a byte left for the null byte. -/
theorem filler_write {n : ℕ} (hroom : vp.ptr + vp.cnt = n + 1) (hblock : n + 1 ≤ vp.data.length)
    (bytes : Bytes) :
    ((vp.data.take vp.ptr ++ bytes).length ≤ n → ∃ vp',
      (vbufPuts VstringFns.filler.putReady ⟨vp, ()⟩ bytes >>= fun b => pure b.bp) >>=
          VstringFns.filler.terminate = .ok vp' ∧
        vp'.data.take vp'.ptr = vp.data.take vp.ptr ++ bytes) ∧
    (¬(vp.data.take vp.ptr ++ bytes).length ≤ n →
      (vbufPuts VstringFns.filler.putReady ⟨vp, ()⟩ bytes >>= fun b => pure b.bp) >>=
          VstringFns.filler.terminate = .error .outside) := by
  have hputs := @filler_vbufPuts ⟨vp, ()⟩ (by simp only; omega) bytes
  simp only at hputs
  rw [hputs]
  by_cases hfit : bytes.length ≤ vp.cnt
  · rw [if_pos hfit]
    exact filler_terminate hroom hblock hfit
  · rw [if_neg hfit]
    refine ⟨fun hle => absurd hle ?_, fun _ => rfl⟩
    rw [List.length_append, List.length_take, Nat.min_eq_left (by omega)]
    omega

/-- Whether a call on an imported string returns, where it returned on the original. -/
theorem filler_exec {n : ℕ} {vp' w' : Vbuf} {op : VstringOp} (h : vp.InStep n vp')
    (hok : fns.exec vp' op = .ok w') :
    (op.InPlace n (vp.data.take vp.ptr) → ∃ w, VstringFns.filler.exec vp op = .ok w ∧
      w.data.take w.ptr = op.apply (vp.data.take vp.ptr)) ∧
    (¬op.InPlace n (vp.data.take vp.ptr) → ∃ e, VstringFns.filler.exec vp op = .error e) := by
  have hblock : n + 1 ≤ vp.data.length := by
    rw [h.data]
    exact h.len'.trans h.block
  have hwrite := @filler_write vp n h.room hblock
  have hreset := @filler_write (vstringReset vp) n ((Nat.zero_add _).trans h.len) hblock
  have hnil : (vstringReset vp).data.take (vstringReset vp).ptr = [] := rfl
  simp only [hnil, List.nil_append] at hreset
  cases op with
  | strcpy src =>
    obtain ⟨r, hputs, -⟩ := bind_ok_iff.1 hok
    obtain ⟨hfit, hno⟩ := hreset (src.takeWhile (· ≠ 0))
    rw [VstringFns.exec, puts_eq (mem_of_puts hputs)]
    exact ⟨hfit, fun h => ⟨_, hno h⟩⟩
  | strncpy src len =>
    obtain ⟨r, hputn, -⟩ := bind_ok_iff.1 hok
    obtain ⟨hfit, hno⟩ := hreset (strPrefix src len.toNat)
    rw [VstringFns.exec, putn_eq (readable_of_putn hputn)]
    exact ⟨hfit, fun h => ⟨_, hno h⟩⟩
  | strcat src =>
    obtain ⟨r, hputs, -⟩ := bind_ok_iff.1 hok
    obtain ⟨hfit, hno⟩ := hwrite (src.takeWhile (· ≠ 0))
    rw [VstringFns.exec, puts_eq (mem_of_puts hputs)]
    exact ⟨hfit, fun h => ⟨_, hno h⟩⟩
  | strncat src len =>
    obtain ⟨r, hputn, -⟩ := bind_ok_iff.1 hok
    obtain ⟨hfit, hno⟩ := hwrite (strPrefix src len.toNat)
    rw [VstringFns.exec, putn_eq (readable_of_putn hputn)]
    exact ⟨hfit, fun h => ⟨_, hno h⟩⟩
  | memcpy src len => exact ⟨False.elim, fun _ => ⟨.outside, rfl⟩⟩
  | memcat src len => exact ⟨False.elim, fun _ => ⟨.outside, rfl⟩⟩
  | truncate len =>
    refine ⟨fun _ => ?_, fun hno => absurd trivial hno⟩
    have hpos : ¬len < 0 := by
      intro hneg
      have herr : fns.exec vp' (.truncate len) =
          .error (.panic (.badLength "vstring_truncate" len)) := if_pos hneg
      cases herr.symm.trans hok
    have hptr : (vp.data.take vp.ptr).length = vp.ptr := by
      have := h.room
      rw [List.length_take]
      omega
    rw [VstringFns.exec, vstringTruncate, if_neg hpos]
    split
    · refine ⟨_, rfl, ?_⟩
      simp only [vstringAtOffset, VstringOp.apply, List.take_take]
      rw [Nat.min_eq_left (by omega)]
    · exact ⟨_, rfl, (List.take_of_length_le (by omega)).symm⟩

/-- A part of a format is printed to an imported string if it is copied and there is room for it. -/
theorem filler_item {b : VbufEnv Unit} {item : Item} {ap : List VaArg}
    (hroom : b.bp.ptr + b.bp.cnt ≤ b.bp.data.length) (r : Bool × VbufEnv Unit × List VaArg) :
    item.exec libc VstringFns.filler.putReady VstringFns.filler.space b ap = .ok r ↔
      ∃ s, item.piece libc ap = .ok (.copy s, r.2.2) ∧ s.length ≤ b.bp.cnt ∧ r.1 = false ∧
        r.2.1 = ⟨b.bp.stored s, ()⟩ := by
  constructor
  · intro h
    obtain ⟨p, rest, hp⟩ : ∃ p rest, item.piece libc ap = .ok (p, rest) := by
      refine (item.piece_of_exec h).resolve_left ?_
      rintro ⟨n, b', hno⟩
      cases hno
    obtain ⟨ap', hexec⟩ := @Item.exec_piece _ _ VstringFns.filler.putReady VstringFns.filler.space
      b _ _ _ _ hp
    rw [hexec] at h
    obtain ⟨⟨failed, b'⟩, hpiece, h⟩ := bind_ok_iff.1 h
    cases p with
    | call text reserved arg => cases hpiece
    | copy s =>
      obtain ⟨b'', hputs, hpiece⟩ := bind_ok_iff.1 hpiece
      rw [filler_vbufPuts hroom] at hputs
      split at hputs
      · rename_i hfit
        obtain rfl := Except.ok.inj hputs
        obtain ⟨rfl, rfl⟩ := Prod.mk.inj (Except.ok.inj hpiece)
        obtain rfl := Except.ok.inj h
        exact ⟨s, hp, hfit, rfl, rfl⟩
      · cases hputs
  · rintro ⟨s, hp, hfit, hfailed, hb⟩
    obtain ⟨ap', hexec⟩ := @Item.exec_piece _ _ VstringFns.filler.putReady VstringFns.filler.space
      b _ _ _ _ hp
    rw [hexec, Piece.exec, filler_vbufPuts hroom, if_pos hfit]
    exact congrArg Except.ok (Prod.ext hfailed.symm (Prod.ext hb.symm rfl))

/-- The parts of a format are printed to an imported string if all of them are copied and there is
room for them. -/
theorem filler_items {b : VbufEnv Unit} {is : List Item} {ap : List VaArg}
    (hroom : b.bp.ptr + b.bp.cnt ≤ b.bp.data.length) (r : VbufEnv Unit × List VaArg) :
    execItems libc VstringFns.filler.putReady VstringFns.filler.space is b ap = .ok r ↔
      ∃ ps out, pieces libc is ap = .ok (ps, r.2) ∧ copied ps = some out ∧
        out.length ≤ b.bp.cnt ∧ r.1 = ⟨b.bp.stored out, ()⟩ := by
  induction is generalizing b ap with
  | nil =>
    constructor
    · intro h
      obtain rfl := Except.ok.inj h
      exact ⟨[], [], rfl, rfl, Nat.zero_le _, by rw [Vbuf.stored_nil]⟩
    · rintro ⟨ps, out, hps, hout, -, hr⟩
      obtain ⟨rfl, hap⟩ := Prod.mk.inj (Except.ok.inj hps)
      obtain rfl := Option.some.inj hout
      rw [Vbuf.stored_nil] at hr
      exact congrArg Except.ok (Prod.ext hr.symm hap)
  | cons item is ih =>
    constructor
    · intro h
      obtain ⟨⟨failed, b₁, ap₁⟩, hitem, h⟩ := bind_ok_iff.1 h
      obtain ⟨s, hp, hfit, rfl, rfl⟩ := (filler_item hroom _).1 hitem
      obtain ⟨ps, out, hps, hout, hlen, hr⟩ := (ih (Vbuf.stored_room hroom hfit)).1 h
      simp only [Vbuf.stored] at hlen
      refine ⟨.copy s :: ps, s ++ out, bind_ok_iff.2 ⟨_, hp, bind_ok_iff.2 ⟨_, hps, rfl⟩⟩, ?_,
        ?_, ?_⟩
      · rw [copied, hout, Option.map_some]
      · rw [List.length_append]
        omega
      · rw [hr, Vbuf.stored_append (by omega)]
    · rintro ⟨ps, out, hps, hout, hlen, hr⟩
      obtain ⟨⟨p, ap₁⟩, hp, hps⟩ := bind_ok_iff.1 hps
      obtain ⟨⟨qs, ap₂⟩, hqs, hps⟩ := bind_ok_iff.1 hps
      obtain ⟨rfl, rfl⟩ := Prod.mk.inj (Except.ok.inj hps)
      cases p with
      | call text reserved arg => cases hout
      | copy s =>
        obtain ⟨out', hout', rfl⟩ := Option.map_eq_some_iff.1 hout
        rw [List.length_append] at hlen
        have hfit : s.length ≤ b.bp.cnt := by omega
        have hitem := (filler_item hroom (false, ⟨b.bp.stored s, ()⟩, ap₁)).2
          ⟨s, hp, hfit, rfl, rfl⟩
        refine bind_ok_iff.2 ⟨_, hitem, (ih (Vbuf.stored_room hroom hfit)).2 ?_⟩
        refine ⟨qs, out', hqs, hout', ?_, ?_⟩
        · simp only [Vbuf.stored]
          omega
        · rw [hr, Vbuf.stored_append (by omega)]

/-- A format is printed to an imported string, where it was printed to the original, if all of it is
copied and there is room for it. -/
theorem filler_print {n : ℕ} {vp' : Vbuf} {fmt : Option Vbuf} {s : Bytes} {ap : List VaArg}
    {st' : PrintState Unit} (h : vp.InStep n vp') (hfmt : ∀ f ∈ fmt, f.Sound) (h0 : 0 ∉ s)
    (hok : vbufPrint libc fns.putReady fns.space fmt ⟨vp', ()⟩ (s ++ [0]) ap = .ok st')
    (b : VbufEnv Unit) :
    (∃ st, vbufPrint libc VstringFns.filler.putReady VstringFns.filler.space fmt ⟨vp, ()⟩ (s ++ [0])
        ap = .ok st ∧ st.b = b) ↔
      ∃ ps rest out, pieces libc (items s) ap = .ok (ps, rest) ∧ copied ps = some out ∧
        out.length ≤ vp.cnt ∧ b = ⟨vp.stored out, ()⟩ := by
  have hroom : vp.ptr + vp.cnt ≤ vp.data.length := by
    have := h.room
    have := h.len'
    have := h.block
    rw [h.data]
    omega
  have hitems := @filler_items libc ⟨vp, ()⟩ (items s) ap hroom
  have hfollows := @vbufPrint_follows _ libc VstringFns.filler.putReady VstringFns.filler.space
    _ _ hfmt h0 ⟨vp, ()⟩ [] ap
  constructor
  · rintro ⟨st, hprint, rfl⟩
    obtain ⟨r, hr, -, rfl⟩ := hfollows.ok st hprint
    obtain ⟨ps, out, hps, hout, hlen, hb⟩ := (hitems _).1 hr
    exact ⟨ps, _, out, hps, hout, hlen, hb⟩
  · rintro ⟨ps, rest, out, hps, hout, hlen, rfl⟩
    have hexec := (hitems (⟨vp.stored out, ()⟩, rest)).2 ⟨ps, out, hps, hout, hlen, rfl⟩
    cases hprint : vbufPrint libc VstringFns.filler.putReady VstringFns.filler.space fmt
        ⟨vp, ()⟩ (s ++ [0]) ap with
    | error e =>
      rcases hfollows.error e hprint with hlong | he
      · obtain ⟨⟨p, rfl⟩, -⟩ := hlong
        rcases (print_follows h fmt _ ap).error _ hprint with he | he
        · cases he
        · cases he.symm.trans hok
      · cases he.symm.trans hexec
    | ok st =>
      obtain ⟨r, hr, -, hst⟩ := hfollows.ok st hprint
      obtain rfl := Except.ok.inj (hexec.symm.trans hr)
      exact ⟨st, rfl, (Prod.mk.inj hst).1⟩

/-- Whether a use of an imported string returns, where it returned on the original. -/
theorem filler_use {n : ℕ} {vp' : Vbuf} {fmt : Option Vbuf} {use : VstringUse}
    {r' : Option Vbuf × Vstring} (h : vp.InStep n vp') (hfmt : ∀ f ∈ fmt, f.Sound)
    (hok : Vstring.exec libc fmt ⟨vp', fns⟩ use = .ok r') :
    (use.InPlace libc n (vp.data.take vp.ptr) → ∃ r,
      Vstring.exec libc fmt ⟨vp, .filler⟩ use = .ok r ∧
        r.2.contents = use.apply libc (vp.data.take vp.ptr)) ∧
    (¬use.InPlace libc n (vp.data.take vp.ptr) →
      ∃ e, Vstring.exec libc fmt ⟨vp, .filler⟩ use = .error e) := by
  cases use with
  | write op =>
    obtain ⟨w', hop, -⟩ := bind_ok_iff.1 hok
    obtain ⟨hfit, hno⟩ := filler_exec h hop
    refine ⟨fun hin => ?_, fun hin => ?_⟩
    · obtain ⟨w, hw, hcontents⟩ := hfit hin
      exact ⟨_, bind_ok_iff.2 ⟨w, hw, rfl⟩, hcontents⟩
    · obtain ⟨e, he⟩ := hno hin
      exact ⟨e, bind_error_iff.2 (.inl he)⟩
  | sprintf format ap =>
    have hblock : n + 1 ≤ vp.data.length := by
      rw [h.data]
      exact h.len'.trans h.block
    have hcnt : (vstringReset vp).cnt = n + 1 := h.len
    have hroom : (vstringReset vp).ptr + (vstringReset vp).cnt = n + 1 :=
      (Nat.zero_add _).trans hcnt
    obtain ⟨st', hprint', -⟩ := bind_ok_iff.1 hok
    have hprints := filler_print h.reset hfmt format.2 hprint'
    constructor
    · rintro ⟨ps, rest, out, hps, hout, hlen⟩
      obtain ⟨st, hprint, hb⟩ := (hprints _).2 ⟨ps, rest, out, hps, hout, by omega, rfl⟩
      have hfit : out.length ≤ (vstringReset vp).cnt := by omega
      obtain ⟨w, hw, hcontents⟩ := (filler_terminate hroom hblock hfit).1 hlen
      refine ⟨(some st.fmt, ⟨w, .filler⟩), ?_, ?_⟩
      · refine bind_ok_iff.2 ⟨st, hprint, bind_ok_iff.2 ⟨w, ?_, rfl⟩⟩
        rw [hb]
        exact hw
      · rw [VstringUse.apply, hps]
        simp only [hout, Option.getD_some]
        exact hcontents
    · intro hno
      cases hexec : Vstring.exec libc fmt ⟨vp, .filler⟩ (.sprintf format ap) with
      | error e => exact ⟨e, rfl⟩
      | ok r =>
        obtain ⟨st, hprint, hexec⟩ := bind_ok_iff.1 hexec
        obtain ⟨w, hw, -⟩ := bind_ok_iff.1 hexec
        obtain ⟨ps, rest, out, hps, hout, hlen, hb⟩ := (hprints _).1 ⟨st, hprint, rfl⟩
        rw [hb] at hw
        refine absurd ⟨ps, rest, out, hps, hout, ?_⟩ hno
        by_contra hlong
        cases ((filler_terminate hroom hblock hlen).2 hlong).symm.trans hw

/-- A use leaves a string for directives that can be used again. -/
theorem use_sound {vp vp' : Vstring} {fmt fmt' : Option Vbuf} {use : VstringUse}
    (hfmt : ∀ f ∈ fmt, f.Sound) (hok : vp.exec libc fmt use = .ok (fmt', vp')) :
    ∀ f ∈ fmt', f.Sound := by
  cases use with
  | write op =>
    obtain ⟨w, -, h⟩ := bind_ok_iff.1 hok
    obtain ⟨rfl, -⟩ := Prod.mk.inj (Except.ok.inj h)
    exact hfmt
  | sprintf format ap =>
    obtain ⟨st, hprint, h⟩ := bind_ok_iff.1 hok
    obtain ⟨w, -, h⟩ := bind_ok_iff.1 h
    obtain ⟨rfl, -⟩ := Prod.mk.inj (Except.ok.inj h)
    obtain ⟨-, -, hsound, -⟩ := (vbufPrint_follows hfmt format.2 _ [] ap).ok st hprint
    rintro f hf
    exact Option.some.inj hf ▸ hsound

/-- Uses of an imported string return if none of them needs a callback, where they returned on the
original. Then both are in step. -/
theorem filler_uses {n : ℕ} {vp' : Vbuf} {fmt : Option Vbuf} {uses : List VstringUse}
    {r' : Option Vbuf × Vstring} (h : vp.InStep n vp') (hfmt : ∀ f ∈ fmt, f.Sound)
    (hok : Vstring.execAll libc fmt ⟨vp', fns⟩ uses = .ok r') :
    (VstringUse.AllInPlace libc n (vp.data.take vp.ptr) uses → ∃ r,
      Vstring.execAll libc fmt ⟨vp, .filler⟩ uses = .ok r ∧ r.2.vbuf.InStep n r'.2.vbuf) ∧
    (¬VstringUse.AllInPlace libc n (vp.data.take vp.ptr) uses → ∃ e,
      Vstring.execAll libc fmt ⟨vp, .filler⟩ uses = .error e) := by
  induction uses generalizing vp vp' fmt with
  | nil =>
    obtain rfl := Except.ok.inj hok
    exact ⟨fun _ => ⟨_, rfl, h⟩, fun hno => absurd trivial hno⟩
  | cons use uses ih =>
    obtain ⟨⟨fmt₁, w'⟩, huse, huses⟩ := bind_ok_iff.1 hok
    obtain ⟨hin, hout⟩ := filler_use h hfmt huse
    by_cases hplace : use.InPlace libc n (vp.data.take vp.ptr)
    · obtain ⟨⟨fmt₂, w⟩, hw, hcontents⟩ := hin hplace
      obtain ⟨r, hr, hfmt₁, hfns, hfns', hstep⟩ := (use_follows h fmt use).ok _ hw
      obtain rfl := Except.ok.inj (huse.symm.trans hr)
      obtain ⟨v, fns⟩ := w
      obtain ⟨v', fns'⟩ := w'
      simp only at hfmt₁ hfns hfns' hstep
      subst hfmt₁ hfns hfns'
      have hrest := ih hstep (use_sound hfmt huse) huses
      have hcontents' : v.data.take v.ptr = use.apply libc (vp.data.take vp.ptr) := hcontents
      rw [hcontents'] at hrest
      refine ⟨fun hall => ?_, fun hall => ?_⟩
      · obtain ⟨r, hr, hstep'⟩ := hrest.1 hall.2
        exact ⟨r, bind_ok_iff.2 ⟨_, hw, hr⟩, hstep'⟩
      · obtain ⟨e, he⟩ := hrest.2 fun hall' => hall ⟨hplace, hall'⟩
        exact ⟨e, bind_error_iff.2 (.inr ⟨_, hw, he⟩)⟩
    · obtain ⟨e, he⟩ := hout hplace
      exact ⟨fun hall => absurd hall.1 hplace, fun _ => ⟨e, bind_error_iff.2 (.inl he)⟩⟩

end

/-! ## Import after export -/

/-- What holds of every `VSTRING`, allocated or imported : its room is in its block. -/
structure Vbuf.Fits (vp : Vbuf) : Prop where
  block : vp.len ≤ vp.data.length
  room : vp.ptr + vp.cnt = vp.len
  small : vp.len < 2 ^ 31

theorem Vbuf.Holds.fits {vp : Vbuf} {s : Bytes} (h : vp.Holds s) : vp.Fits :=
  ⟨h.block.ge, h.room, h.small⟩

theorem Vbuf.InStep.fits {n : ℕ} {vp vp' : Vbuf} (h : vp.InStep n vp') : vp.Fits := by
  have hlen := h.len
  have hlen' := h.len'
  have hblock := h.block
  have hsmall := h.small
  refine ⟨?_, h.room.trans hlen.symm, by omega⟩
  rw [h.data]
  omega

/-- The import of an exported string has its contents, and room for nothing more. -/
theorem import_export {vp : Vstring} (h : vp.vbuf.Fits) (hterm : vp.vbuf.Terminated)
    (h0 : 0 ∉ vp.contents) :
    ∃ v : Vbuf, vstringImport (vstringExport vp) = .ok ⟨v, .filler⟩ ∧
      v.InStep vp.contents.length vp.vbuf ∧ v.data.take v.ptr = vp.contents := by
  obtain ⟨vp, fns⟩ := vp
  obtain ⟨hblock, hroom, hsmall⟩ := h
  have hlt : vp.ptr < vp.len := hterm.1
  have hptr : (vp.data.take vp.ptr).length = vp.ptr := by
    simp only at hblock
    rw [List.length_take]
    omega
  have hcut : vp.data.takeWhile (· ≠ 0) = vp.data.take vp.ptr := vstringStr_eq rfl hterm h0
  have hmem : 0 ∈ vp.data := List.mem_of_getElem? hterm.2
  simp only [Vstring.contents] at *
  rw [hptr]
  have hint : intOf vp.ptr = vp.ptr := intOf_eq (by omega) (by omega)
  have hlen : sizeTOf ((vp.ptr : ℤ) + 1) = vp.ptr + 1 := by
    unfold sizeTOf
    omega
  refine ⟨vstringAtOffset ⟨vp.data, vp.ptr + 1, 0, 0⟩ vp.ptr, ?_, ⟨rfl, ?_, rfl, ?_, hroom,
    by omega, hblock, hsmall⟩, rfl⟩
  · rw [vstringImport, vstringExport, if_pos hmem, hcut, hptr, hint]
    simp only [hlen]
    rfl
  · simp only [vstringAtOffset]
    omega
  · simp only [vstringAtOffset, sizeTOf]
    omega

/-- What there is in the end is the same for both. -/
theorem finish_eq {n : ℕ} {vp vp' : Vbuf} {fns fns' : VstringFns} (h : vp.InStep n vp')
    (last : VstringEnd) :
    Vstring.finish ⟨vp, fns⟩ last = Vstring.finish ⟨vp', fns'⟩ last := by
  cases last with
  | kept => rw [Vstring.finish, Vstring.finish, Vstring.contents, Vstring.contents, h.data, h.ptr]
  | exported => rw [Vstring.finish, Vstring.finish, vstringExport, vstringExport, h.data]
  | freed => rfl

/-- The import of an exported string has its contents. Uses of it that returned on the original,
which `vstring.c` does if it was allocated, do the same if and only if none of them needs a
callback. -/
theorem import_export_iff {libc : Libc} {fmt : Option Vbuf} {vp : Vstring} {uses : List VstringUse}
    {last : VstringEnd} {result : Bytes} (h : vp.vbuf.Fits) (hterm : vp.vbuf.Terminated)
    (h0 : 0 ∉ vp.contents) (hfmt : ∀ f ∈ fmt, f.Sound)
    (hrun : vp.run libc fmt uses last = .ok result) :
    ∃ imported, vstringImport (vstringExport vp) = .ok imported ∧
      imported.contents = vp.contents ∧
      (vp.fns = .vstring → ∃ fmt' vbuf,
        VstringUse.execAll libc fmt vp.vbuf uses = .ok (fmt', vbuf) ∧
          Vstring.finish ⟨vbuf, .vstring⟩ last = .ok result) ∧
      (imported.run libc fmt uses last = .ok result ↔
        VstringUse.AllInPlace libc vp.contents.length vp.contents uses) := by
  obtain ⟨v, himport, hstep, hcontents⟩ := import_export h hterm h0
  obtain ⟨⟨fmt', w'⟩, huses, hlast⟩ := bind_ok_iff.1 hrun
  refine ⟨⟨v, .filler⟩, himport, hcontents, fun hfns => ?_, ?_⟩
  · obtain ⟨vbuf, fns⟩ := vp
    obtain rfl : fns = .vstring := hfns
    rw [VstringFns.vstring_uses] at huses
    obtain ⟨⟨fmt'', vbuf'⟩, hexec, heq⟩ := bind_ok_iff.1 huses
    obtain ⟨rfl, rfl⟩ := Prod.mk.inj (Except.ok.inj heq)
    exact ⟨_, _, hexec, hlast⟩
  obtain ⟨hin, hout⟩ := filler_uses hstep hfmt huses
  rw [hcontents] at hin hout
  constructor
  · intro hrun'
    by_contra hno
    obtain ⟨e, he⟩ := hout hno
    obtain ⟨r, hr, -⟩ := bind_ok_iff.1 hrun'
    cases he.symm.trans hr
  · intro hall
    obtain ⟨⟨fmt'', w⟩, hr, hstep'⟩ := hin hall
    refine bind_ok_iff.2 ⟨_, hr, ?_⟩
    rw [← hlast]
    exact finish_eq hstep' last

/-- The bytes that the string had are room enough for what is printed, and for what comes after it
is truncated. -/
theorem import_export_iff_truncate : ∃ vp imported fmt' vbuf,
    (vstringAlloc 10 >>= fun vp => vstringStrcpy vp (cstr "abc" ++ [0])) = .ok vp ∧
    VstringUse.execAll ⟨fun _ _ => none, []⟩ none vp
      [.sprintf ⟨cstr "%%e", by decide⟩ [], .write (.truncate 1),
        .write (.strcat (cstr "xy" ++ [0]))] = .ok (fmt', vbuf) ∧
    Vstring.finish ⟨vbuf, .vstring⟩ .exported = .ok (cstr "%xy") ∧
    vstringImport (vstringExport ⟨vp, .vstring⟩) = .ok imported ∧
    imported.run ⟨fun _ _ => none, []⟩ none
      [.sprintf ⟨cstr "%%e", by decide⟩ [], .write (.truncate 1),
        .write (.strcat (cstr "xy" ++ [0]))] .exported = .ok (cstr "%xy") := by
  have hrun : Vstring.run ⟨fun _ _ => none, []⟩ none
      ⟨⟨cstr "abc" ++ 0 :: List.replicate 6 255, 10, 7, 3⟩, .vstring⟩
      [.sprintf ⟨cstr "%%e", by decide⟩ [], .write (.truncate 1),
        .write (.strcat (cstr "xy" ++ [0]))] .exported = .ok (cstr "%xy") :=
    toOption_eq_some (by decide +kernel)
  obtain ⟨imported, himport, -, halloc, hiff⟩ := import_export_iff ⟨by decide, rfl, by decide⟩
    ⟨by decide, by decide⟩ (by decide) (fun f hf => by cases hf) hrun
  obtain ⟨fmt', vbuf, hexec, hlast⟩ := halloc rfl
  refine ⟨_, imported, fmt', vbuf, rfl, hexec, hlast, himport, hiff.2 ⟨?_, trivial, ?_, trivial⟩⟩
  · exact ⟨_, _, cstr "%e", rfl, rfl, by decide⟩
  · exact show (_ : ℕ) ≤ _ by decide

/-- A byte that is added to an imported string needs more room. -/
theorem not_import_export :
    ∃ vp : Vbuf, (vstringAlloc 10 >>= fun vp => vstringStrcpy vp (cstr "abc" ++ [0])) = .ok vp ∧
      Vstring.run ⟨fun _ _ => none, []⟩ none ⟨vp, .vstring⟩
        [.write (.strcat (cstr "d" ++ [0]))] .kept = .ok (cstr "abcd") ∧
      ∃ imported, vstringImport (vstringExport ⟨vp, .vstring⟩) = .ok imported ∧
        imported.contents = cstr "abc" ∧
        imported.run ⟨fun _ _ => none, []⟩ none
          [.write (.strcat (cstr "d" ++ [0]))] .kept = .error .outside :=
  ⟨⟨cstr "abc" ++ 0 :: List.replicate 6 255, 10, 7, 3⟩, rfl, rfl, _, rfl, rfl, rfl⟩

end Nowra
