import Nowra.Stringop

/-!
# Growing strings

`vstring.c` and `vbuf.h` : a block of bytes with a write position and a count of the bytes that
are left. Characters go in through `VBUF_PUT`, which extends a full buffer, and memory goes in
through a request for space.

`Vbuf.Holds` ties the four fields to the bytes written so far. Every operation keeps it, and does
to the bytes what its name says (`VstringOp.apply`), as long as there are less than `2 ^ 30` of
them (`vstring_refines`). A buffer is never more than twice as long as its contents have been, so
its length stays an `int`.
-/

namespace Nowra

/-- A buffer. The block of its data is held by its bytes, and the write position is relative to
the start of the block. -/
structure Vbuf where
  data : Bytes
  len : ℕ
  /-- The bytes left to write. -/
  cnt : ℕ
  ptr : ℕ

/-! ## The operations -/

/-- The extension policy : at least twice as long. -/
def vstringExtend (bp : Vbuf) (incr : ℤ) : Except Fault Vbuf :=
  let used := unsignedOf bp.ptr
  let len := sizeTOf (bp.len + if bp.len > sizeTOf incr then bp.len else sizeTOf incr)
  if intOf len < 1 then throw (.panic (.requestedLength "myrealloc" (intOf len)))
  else
    pure
      { data := reallocPayload bp.data bp.data.length (intOf len), len := len
        cnt := sizeTOf (len - used), ptr := used }

/-- Reserve space. -/
def vstringBufSpace (bp : Vbuf) (len : ℕ) : Except Fault Vbuf :=
  let need := intOf (sizeTOf (len - bp.cnt))
  if need > 0 then vstringExtend bp need else pure bp

/-- Store bytes in a block. -/
def storeAt (data : Bytes) (ptr : ℕ) (bytes : Bytes) : Except Fault Bytes :=
  if ptr + bytes.length ≤ data.length then
    pure (data.take ptr ++ bytes ++ data.drop (ptr + bytes.length))
  else throw .outside

/-- `VBUF_PUT`. In a full buffer, `vbuf_put` extends it and tries again, as often as `turns`
says. Each turn doubles the buffer, and one is enough for a buffer that is not empty. -/
def vbufPut (turns : ℕ) (bp : Vbuf) (c : BitVec 8) : Except Fault Vbuf :=
  if bp.cnt > 0 then do
    let data ← storeAt bp.data bp.ptr [c]
    pure { bp with data := data, cnt := bp.cnt - 1, ptr := bp.ptr + 1 }
  else
    match turns with
    | 0 => throw .outside
    | turns + 1 => do vbufPut turns (← vstringExtend bp 0) c

/-- `VSTRING_ADDCH` -/
def vstringAddch (vp : Vbuf) (c : BitVec 8) : Except Fault Vbuf := vbufPut 32 vp c

/-- `VSTRING_RESET` -/
def vstringReset (vp : Vbuf) : Vbuf := { vp with ptr := 0, cnt := vp.len }

/-- `VSTRING_AT_OFFSET` -/
def vstringAtOffset (vp : Vbuf) (offset : ℤ) : Vbuf :=
  { vp with ptr := offset.toNat, cnt := sizeTOf (vp.len - offset) }

/-- `VSTRING_TERMINATE` -/
def vstringTerminate (vp : Vbuf) : Except Fault Vbuf := do
  let vp ← (if vp.cnt = 0 then vstringBufSpace vp 1 else pure vp)
  let data ← storeAt vp.data vp.ptr [0]
  pure { vp with data := data }

/-- Create a string. -/
def vstringAlloc (len : ℤ) : Except Fault Vbuf :=
  if len < 1 then throw (.panic (.badLength "vstring_alloc" len))
  else do
    let vp := vstringReset ⟨List.replicate len.toNat mblockFiller, len.toNat, 0, 0⟩
    let data ← storeAt vp.data 0 [0]
    pure { vp with data := data }

/-- Truncate a string. -/
def vstringTruncate (vp : Vbuf) (len : ℤ) : Except Fault Vbuf :=
  if len < 0 then throw (.panic (.badLength "vstring_truncate" len))
  else if len < vp.ptr then pure (vstringAtOffset vp len)
  else pure vp

/-- The loop over a string, which ends at its null byte. -/
def vstringPuts (vp : Vbuf) : Bytes → Except Fault Vbuf
  | [] => throw .outside
  | c :: src => if c = 0 then pure vp else do vstringPuts (← vstringAddch vp c) src

/-- The loop over a string that is limited to `len` bytes. -/
def vstringPutn (vp : Vbuf) : Bytes → ℤ → Except Fault Vbuf
  | [], len => if len > 0 then throw .outside else pure vp
  | c :: src, len =>
    if len > 0 ∧ c ≠ 0 then do vstringPutn (← vstringAddch vp c) src (len - 1) else pure vp

/-- Copy a string. -/
def vstringStrcpy (vp : Vbuf) (src : Bytes) : Except Fault Vbuf := do
  vstringTerminate (← vstringPuts (vstringReset vp) src)

/-- Copy a string of limited length. -/
def vstringStrncpy (vp : Vbuf) (src : Bytes) (len : ℤ) : Except Fault Vbuf := do
  vstringTerminate (← vstringPutn (vstringReset vp) src len)

/-- Append a string. -/
def vstringStrcat (vp : Vbuf) (src : Bytes) : Except Fault Vbuf := do
  vstringTerminate (← vstringPuts vp src)

/-- Append a string of limited length. -/
def vstringStrncat (vp : Vbuf) (src : Bytes) (len : ℤ) : Except Fault Vbuf := do
  vstringTerminate (← vstringPutn vp src len)

/-- What `memcpy` reads. -/
def memRead (src : Bytes) (len : ℤ) : Except Fault Bytes :=
  if len < 0 ∨ src.length < len then throw .outside else pure (src.take len.toNat)

/-- Copy a buffer of limited length. -/
def vstringMemcpy (vp : Vbuf) (src : Bytes) (len : ℤ) : Except Fault Vbuf := do
  let vp ← vstringBufSpace (vstringReset vp) (sizeTOf len)
  let data ← storeAt vp.data 0 (← memRead src len)
  pure (vstringAtOffset { vp with data := data } len)

/-- Append a buffer of limited length. -/
def vstringMemcat (vp : Vbuf) (src : Bytes) (len : ℤ) : Except Fault Vbuf := do
  let vp ← vstringBufSpace vp (sizeTOf len)
  let data ← storeAt vp.data vp.ptr (← memRead src len)
  pure (vstringAtOffset { vp with data := data } (len + vp.ptr))

/-- A call that writes a string. A source is the memory that can be read at its address. -/
inductive VstringOp
  | strcpy (src : Bytes)
  | strncpy (src : Bytes) (len : ℤ)
  | strcat (src : Bytes)
  | strncat (src : Bytes) (len : ℤ)
  | memcpy (src : Bytes) (len : ℤ)
  | memcat (src : Bytes) (len : ℤ)
  | truncate (len : ℤ)

/-- What the call does. -/
def VstringOp.exec (vp : Vbuf) : VstringOp → Except Fault Vbuf
  | .strcpy src => vstringStrcpy vp src
  | .strncpy src len => vstringStrncpy vp src len
  | .strcat src => vstringStrcat vp src
  | .strncat src len => vstringStrncat vp src len
  | .memcpy src len => vstringMemcpy vp src len
  | .memcat src len => vstringMemcat vp src len
  | .truncate len => vstringTruncate vp len

/-! ## The bytes written -/

namespace VstringOp

/-- The call is given what it may read, and no negative length. -/
def Ok : VstringOp → Prop
  | strcpy src | strcat src => 0 ∈ src
  | strncpy src len | strncat src len => 0 ≤ len ∧ (0 ∈ src ∨ len ≤ src.length)
  | memcpy src len | memcat src len => 0 ≤ len ∧ len ≤ src.length
  | truncate len => 0 ≤ len

/-- What the call does to the bytes. -/
def apply (s : Bytes) : VstringOp → Bytes
  | strcpy src => src.takeWhile (· ≠ 0)
  | strncpy src len => strPrefix src len.toNat
  | strcat src => s ++ src.takeWhile (· ≠ 0)
  | strncat src len => s ++ strPrefix src len.toNat
  | memcpy src len => src.take len.toNat
  | memcat src len => s ++ src.take len.toNat
  | truncate len => s.take len.toNat

/-- The call leaves a null byte behind the string. -/
def Terminates : VstringOp → Prop
  | strcpy _ | strncpy _ _ | strcat _ | strncat _ _ => True
  | memcpy _ _ | memcat _ _ | truncate _ => False

end VstringOp

/-- The buffer holds the bytes `s`. -/
structure Vbuf.Holds (vp : Vbuf) (s : Bytes) : Prop where
  block : vp.data.length = vp.len
  room : vp.ptr + vp.cnt = vp.len
  used : vp.ptr = s.length
  contents : vp.data.take vp.ptr = s
  pos : 1 ≤ vp.len
  small : vp.len < 2 ^ 31

/-- There is a null byte behind the string. -/
def Vbuf.Terminated (vp : Vbuf) : Prop := vp.ptr < vp.len ∧ vp.data[vp.ptr]? = some 0

namespace Vbuf

variable {vp : Vbuf} {s : Bytes}

theorem sizeTOf_natCast {n : ℕ} (h : n < 2 ^ 64) : sizeTOf n = n := by
  unfold sizeTOf
  omega

/-- The length of an extended buffer. -/
theorem extendLen_eq {len incr : ℕ} (h : len + max len incr < 2 ^ 31) :
    sizeTOf (len + (if len > sizeTOf incr then len else sizeTOf incr : ℕ)) =
      len + max len incr := by
  rw [sizeTOf_natCast (by omega)]
  unfold sizeTOf
  split <;> omega

/-- An extension keeps the bytes. -/
theorem Holds.extend (h : vp.Holds s) {incr : ℕ} (hsmall : vp.len + max vp.len incr < 2 ^ 31) :
    ∃ vp', vstringExtend vp incr = .ok vp' ∧ vp'.Holds s ∧ vp'.len = vp.len + max vp.len incr := by
  have hpos := h.pos
  have hroom := h.room
  have hdata := h.block
  have hused : unsignedOf vp.ptr = vp.ptr := by
    unfold unsignedOf
    omega
  have hnew := extendLen_eq hsmall
  generalize hlen : vp.len + max vp.len incr = len at *
  have hint : intOf len = len := intOf_eq (by omega) (by omega)
  have hcnt : sizeTOf (len - vp.ptr) = len - vp.ptr := by
    unfold sizeTOf
    omega
  have hge : vp.len ≤ len := by omega
  refine ⟨⟨reallocPayload vp.data vp.data.length len, len, len - vp.ptr, vp.ptr⟩, ?_, ?_, rfl⟩
  · unfold vstringExtend
    simp only [hused, hnew, hint, hcnt]
    rw [if_neg (by omega)]
    rfl
  have hdata' : (reallocPayload vp.data vp.data.length len).length = len := by
    rw [reallocPayload, List.length_append, List.length_take, List.length_replicate, hdata]
    omega
  have htake : (reallocPayload vp.data vp.data.length len).take vp.ptr = s := by
    rw [reallocPayload, Int.toNat_natCast, List.take_of_length_le (hdata.le.trans hge),
      List.take_append_of_le_length (by omega), h.contents]
  exact ⟨hdata', by simp only; omega, h.used, htake, by simp only; omega, hsmall⟩

/-- Reserved space is there, and the bytes are kept. -/
theorem Holds.space (h : vp.Holds s) {len : ℕ}
    (hnew : vp.cnt < len → vp.len + max vp.len (len - vp.cnt) < 2 ^ 31) :
    ∃ vp', vstringBufSpace vp len = .ok vp' ∧ vp'.Holds s ∧ len ≤ vp'.cnt := by
  have hroom := h.room
  have hused := h.used
  have hsmall := h.small
  unfold vstringBufSpace
  rcases Nat.lt_or_ge vp.cnt len with hlt | hle
  · have hnew := hnew hlt
    have hneed : intOf (sizeTOf (len - vp.cnt)) = (len - vp.cnt : ℕ) := by
      unfold intOf sizeTOf
      omega
    obtain ⟨vp', hext, hh, hlen⟩ := h.extend hnew
    have hroom' := hh.room
    have hused' := hh.used
    refine ⟨vp', ?_, hh, by omega⟩
    simp only [hneed]
    rw [if_pos (by omega), hext]
  · have hneed : intOf (sizeTOf (len - vp.cnt)) ≤ 0 := by
      unfold intOf sizeTOf
      omega
    refine ⟨vp, ?_, h, hle⟩
    simp only
    rw [if_neg (by omega)]
    rfl

/-- Bytes are stored where there is room for them, after the bytes that are there. -/
theorem Holds.store (h : vp.Holds s) (bytes : Bytes) (hfit : bytes.length ≤ vp.cnt) :
    ∃ data, storeAt vp.data vp.ptr bytes = .ok data ∧ data.length = vp.len ∧
      data.take (vp.ptr + bytes.length) = s ++ bytes := by
  have hroom := h.room
  have hdata := h.block
  have hle : vp.ptr + bytes.length ≤ vp.data.length := by omega
  refine ⟨vp.data.take vp.ptr ++ bytes ++ vp.data.drop (vp.ptr + bytes.length), ?_, ?_, ?_⟩
  · rw [storeAt, if_pos hle]
    rfl
  · rw [List.length_append, List.length_append, List.length_take, List.length_drop]
    omega
  · rw [h.contents, h.used, ← List.length_append, List.take_left]

/-- The bytes stored are added to the bytes that are there. -/
theorem Holds.advance (h : vp.Holds s) (bytes : Bytes) {data : Bytes} (hfit : bytes.length ≤ vp.cnt)
    (hlen : data.length = vp.len) (htake : data.take (vp.ptr + bytes.length) = s ++ bytes) :
    Holds ⟨data, vp.len, vp.cnt - bytes.length, vp.ptr + bytes.length⟩ (s ++ bytes) := by
  have hroom := h.room
  refine ⟨hlen, ?_, ?_, htake, h.pos, h.small⟩
  · simp only
    omega
  · rw [List.length_append, ← h.used]

/-- A character is added, in a full buffer after an extension. -/
theorem Holds.addch (h : vp.Holds s) (c : BitVec 8) (hsize : s.length + 1 < 2 ^ 30) :
    ∃ vp', vstringAddch vp c = .ok vp' ∧ vp'.Holds (s ++ [c]) := by
  have put (turns : ℕ) {vp : Vbuf} (h : vp.Holds s) (hcnt : 0 < vp.cnt) :
      ∃ vp', vbufPut turns vp c = .ok vp' ∧ vp'.Holds (s ++ [c]) := by
    obtain ⟨data, hst, hlen, htake⟩ := h.store [c] hcnt
    refine ⟨_, ?_, h.advance [c] hcnt hlen htake⟩
    unfold vbufPut
    rw [if_pos hcnt, hst]
    rfl
  rcases Nat.eq_zero_or_pos vp.cnt with hcnt | hcnt
  · have hroom := h.room
    have hused := h.used
    have hpos := h.pos
    have hnew : vp.len + max vp.len 0 < 2 ^ 31 := by omega
    obtain ⟨vp', hext, hh, hlen⟩ := h.extend hnew
    have hroom' := hh.room
    have hused' := hh.used
    obtain ⟨vp'', hput, hh'⟩ := put 31 hh (by omega)
    refine ⟨vp'', ?_, hh'⟩
    rw [vstringAddch, vbufPut, if_neg (by omega)]
    exact (congrArg (· >>= (vbufPut 31 · c)) hext).trans hput
  · exact put 32 h hcnt

/-- A null byte is stored where there is room for it, behind the bytes. -/
theorem Holds.storeNull (h : vp.Holds s) (hcnt : 1 ≤ vp.cnt) : ∃ data,
    storeAt vp.data vp.ptr [0] = .ok data ∧ Holds { vp with data := data } s ∧
      Terminated { vp with data := data } := by
  obtain ⟨data, hst, hlen, htake⟩ := h.store [0] hcnt
  have hroom := h.room
  have hs : s.length = vp.ptr := h.used.symm
  refine ⟨data, hst, ⟨hlen, hroom, h.used, ?_, h.pos, h.small⟩, ?_, ?_⟩
  · have hcut := congrArg (List.take vp.ptr) htake
    rwa [List.take_take, Nat.min_eq_left (Nat.le_add_right _ _), ← hs, List.take_left, hs] at hcut
  · simp only
    omega
  · have hat := congrArg (·[vp.ptr]?) htake
    simpa [← hs] using hat

/-- The null byte is put behind the bytes. -/
theorem Holds.terminate (h : vp.Holds s) (hsize : s.length < 2 ^ 30) :
    ∃ vp', vstringTerminate vp = .ok vp' ∧ vp'.Holds s ∧ vp'.Terminated := by
  unfold vstringTerminate
  rcases Nat.eq_zero_or_pos vp.cnt with hcnt | hcnt
  · have hroom := h.room
    have hpos := h.pos
    have hsmall := h.small
    have hused := h.used
    obtain ⟨vp', hsp, hh, hle⟩ := h.space fun _ : vp.cnt < 1 => by omega
    obtain ⟨data, hst, hh', ht⟩ := hh.storeNull hle
    refine ⟨_, ?_, hh', ht⟩
    rw [if_pos hcnt, hsp]
    exact congrArg (· >>= fun data => pure { vp' with data := data }) hst
  · obtain ⟨data, hst, hh', ht⟩ := h.storeNull hcnt
    refine ⟨_, ?_, hh', ht⟩
    rw [if_neg (by omega)]
    exact congrArg (· >>= fun data => pure { vp with data := data }) hst

/-- Nothing is written in an emptied buffer. -/
theorem Holds.reset (h : vp.Holds s) : (vstringReset vp).Holds [] :=
  ⟨h.block, Nat.zero_add _, rfl, rfl, h.pos, h.small⟩

/-- The position is moved to the end of bytes that are there. -/
theorem Holds.atOffset (h : vp.Holds s) {len : ℕ} (hlen : len ≤ s.length) :
    (vstringAtOffset vp len).Holds (s.take len) := by
  have hroom := h.room
  have hused := h.used
  have hsmall := h.small
  refine ⟨h.block, ?_, ?_, ?_, h.pos, hsmall⟩
  · simp only [vstringAtOffset, sizeTOf]
    omega
  · simp only [vstringAtOffset, List.length_take]
    omega
  · simp only [vstringAtOffset, Int.toNat_natCast]
    rw [← h.contents, List.take_take, Nat.min_eq_left (by omega)]

/-- The first byte of a string that has not ended, and the rest up to its null byte. -/
theorem append_takeWhile_cons (s l : Bytes) {c : BitVec 8} (hc : c ≠ 0) :
    s ++ (c :: l).takeWhile (· ≠ 0) = s ++ [c] ++ l.takeWhile (· ≠ 0) := by
  rw [takeWhile_null_cons hc, List.append_cons]

/-- A character is added if there is room for it and for what comes after it. -/
theorem Holds.addch_append (h : vp.Holds s) {c : BitVec 8} {l : Bytes}
    (hsize : (s ++ [c] ++ l).length < 2 ^ 30) :
    ∃ vp', vstringAddch vp c = .ok vp' ∧ vp'.Holds (s ++ [c]) := by
  refine h.addch c ?_
  rw [List.length_append, List.length_append, List.length_singleton] at hsize
  omega

/-- A string is added up to its null byte. -/
theorem Holds.puts (h : vp.Holds s) {src : Bytes} (hnull : 0 ∈ src)
    (hsize : (s ++ src.takeWhile (· ≠ 0)).length < 2 ^ 30) :
    ∃ vp', vstringPuts vp src = .ok vp' ∧ vp'.Holds (s ++ src.takeWhile (· ≠ 0)) := by
  induction src generalizing vp s with
  | nil => simp at hnull
  | cons c src ih =>
    unfold vstringPuts
    by_cases hc : c = 0
    · rw [if_pos hc, List.takeWhile_cons_of_neg (by simp [hc]), List.append_nil]
      exact ⟨vp, rfl, h⟩
    · rw [append_takeWhile_cons _ _ hc] at hsize ⊢
      obtain ⟨vp', hput, hh⟩ := h.addch_append hsize
      obtain ⟨vp'', hputs, hh'⟩ :=
        ih hh ((List.mem_cons.1 hnull).resolve_left (Ne.symm hc)) hsize
      refine ⟨vp'', ?_, hh'⟩
      rw [if_neg hc, hput]
      exact hputs

/-- A string is added up to its null byte or up to the length. -/
theorem Holds.putn (h : vp.Holds s) {src : Bytes} {len : ℕ}
    (hread : 0 ∈ src ∨ len ≤ src.length) (hsize : (s ++ strPrefix src len).length < 2 ^ 30) :
    ∃ vp', vstringPutn vp src len = .ok vp' ∧ vp'.Holds (s ++ strPrefix src len) := by
  induction src generalizing vp s len with
  | nil =>
    have hlen : ¬(len : ℤ) > 0 := by simpa using hread
    refine ⟨vp, if_neg hlen, ?_⟩
    rwa [strPrefix, List.take_nil, List.takeWhile_nil, List.append_nil]
  | cons c src ih =>
    unfold vstringPutn
    obtain _ | len := len
    · refine ⟨vp, if_neg (by simp), ?_⟩
      rwa [strPrefix, List.take_zero, List.takeWhile_nil, List.append_nil]
    rw [strPrefix, List.take_succ_cons] at hsize ⊢
    by_cases hc : c = 0
    · refine ⟨vp, if_neg (by simp [hc]), ?_⟩
      rwa [List.takeWhile_cons_of_neg (by simp [hc]), List.append_nil]
    · rw [append_takeWhile_cons _ _ hc] at hsize ⊢
      obtain ⟨vp', hput, hh⟩ := h.addch_append hsize
      have hread' : 0 ∈ src ∨ len ≤ src.length :=
        hread.imp (fun h0 => (List.mem_cons.1 h0).resolve_left (Ne.symm hc)) Nat.le_of_succ_le_succ
      obtain ⟨vp'', hputn, hh'⟩ := ih hh hread' hsize
      refine ⟨vp'', ?_, hh'⟩
      rw [if_pos ⟨by omega, hc⟩, hput, show ((len + 1 : ℕ) : ℤ) - 1 = len by omega]
      exact hputn

/-- Memory is added after a request for space. -/
theorem Holds.mem (h : vp.Holds s) {src : Bytes} {len : ℕ} (hread : len ≤ src.length)
    (hsize : s.length + len < 2 ^ 30) :
    ∃ vp' data, vstringBufSpace vp (sizeTOf len) = .ok vp' ∧ memRead src len = .ok (src.take len) ∧
      vp'.ptr = s.length ∧ storeAt vp'.data vp'.ptr (src.take len) = .ok data ∧
      (vstringAtOffset { vp' with data := data } (len + s.length)).Holds (s ++ src.take len) := by
  have hroom := h.room
  have hused := h.used
  have hlen : (src.take len).length = len := List.length_take_of_le hread
  obtain ⟨vp', hsp, hh, hcnt⟩ := h.space fun _ : vp.cnt < len => by omega
  obtain ⟨data, hst, hdata, htake⟩ := hh.store (src.take len) (hlen.trans_le hcnt)
  have hadd := hh.advance (src.take len) (hlen.trans_le hcnt) hdata htake
  refine ⟨vp', data, ?_, ?_, hh.used, hst, ?_⟩
  · exact (congrArg (vstringBufSpace vp) (sizeTOf_natCast (by omega))).trans hsp
  · rw [memRead, if_neg (by omega)]
    rfl
  · have hend : len + s.length = (s ++ src.take len).length := by
      rw [List.length_append, hlen, Nat.add_comm]
    have hat := hadd.atOffset hend.le
    rwa [List.take_of_length_le hend.ge] at hat

end Vbuf

/-- A call that is given what it may read does to the bytes what its name says. -/
theorem VstringOp.exec_spec {vp : Vbuf} {s : Bytes} {op : VstringOp} (h : vp.Holds s) (hok : op.Ok)
    (hsize : (op.apply s).length < 2 ^ 30) :
    ∃ vp', op.exec vp = .ok vp' ∧ vp'.Holds (op.apply s) ∧ (op.Terminates → vp'.Terminated) := by
  have finish {vp' : Vbuf} {s' : Bytes} (h' : vp'.Holds s') (hs : s'.length < 2 ^ 30) :
      ∃ vp'', vstringTerminate vp' = .ok vp'' ∧ vp''.Holds s' ∧ (True → vp''.Terminated) := by
    obtain ⟨vp'', ht, hh, hterm⟩ := h'.terminate hs
    exact ⟨vp'', ht, hh, fun _ => hterm⟩
  cases op with
  | strcpy src =>
    obtain ⟨vp', hput, hh⟩ := h.reset.puts hok hsize
    obtain ⟨vp'', hterm⟩ := finish hh hsize
    exact ⟨vp'', (congrArg (· >>= vstringTerminate) hput).trans hterm.1, hterm.2⟩
  | strncpy src len =>
    obtain ⟨len, rfl⟩ := Int.eq_ofNat_of_zero_le hok.1
    obtain ⟨vp', hput, hh⟩ := h.reset.putn (hok.2.imp_right Int.ofNat_le.1) hsize
    obtain ⟨vp'', hterm⟩ := finish hh hsize
    exact ⟨vp'', (congrArg (· >>= vstringTerminate) hput).trans hterm.1, hterm.2⟩
  | strcat src =>
    obtain ⟨vp', hput, hh⟩ := h.puts hok hsize
    obtain ⟨vp'', hterm⟩ := finish hh hsize
    exact ⟨vp'', (congrArg (· >>= vstringTerminate) hput).trans hterm.1, hterm.2⟩
  | strncat src len =>
    obtain ⟨len, rfl⟩ := Int.eq_ofNat_of_zero_le hok.1
    obtain ⟨vp', hput, hh⟩ := h.putn (hok.2.imp_right Int.ofNat_le.1) hsize
    obtain ⟨vp'', hterm⟩ := finish hh hsize
    exact ⟨vp'', (congrArg (· >>= vstringTerminate) hput).trans hterm.1, hterm.2⟩
  | memcpy src len =>
    obtain ⟨len, rfl⟩ := Int.eq_ofNat_of_zero_le hok.1
    have hread : len ≤ src.length := Int.ofNat_le.1 hok.2
    have hlen : ([] : Bytes).length + len < 2 ^ 30 := by
      simpa [apply, hread] using hsize
    obtain ⟨vp', data, hsp, hmem, hptr, hst, hh⟩ := h.reset.mem hread hlen
    rw [hptr] at hst
    refine ⟨_, ?_, hh, False.elim⟩
    exact bind_ok_iff.2 ⟨vp', hsp, bind_ok_iff.2 ⟨_, hmem, bind_ok_iff.2 ⟨data, hst, rfl⟩⟩⟩
  | memcat src len =>
    obtain ⟨len, rfl⟩ := Int.eq_ofNat_of_zero_le hok.1
    have hread : len ≤ src.length := Int.ofNat_le.1 hok.2
    have hlen : s.length + len < 2 ^ 30 := by
      simpa [apply, hread] using hsize
    obtain ⟨vp', data, hsp, hmem, hptr, hst, hh⟩ := h.mem hread hlen
    rw [← hptr] at hh
    refine ⟨_, ?_, hh, False.elim⟩
    exact bind_ok_iff.2 ⟨vp', hsp, bind_ok_iff.2 ⟨_, hmem, bind_ok_iff.2 ⟨data, hst, rfl⟩⟩⟩
  | truncate len =>
    obtain ⟨len, rfl⟩ := Int.eq_ofNat_of_zero_le hok
    have hused := h.used
    simp only [exec, vstringTruncate, apply, Int.toNat_natCast]
    rw [if_neg (by omega)]
    rcases Nat.lt_or_ge len s.length with hlt | hle
    · rw [if_pos (by omega)]
      exact ⟨_, rfl, h.atOffset hlt.le, False.elim⟩
    · rw [if_neg (by omega), List.take_of_length_le hle]
      exact ⟨vp, rfl, h, False.elim⟩

/-- A new string is empty. -/
theorem vstringAlloc_spec {n : ℤ} (hn : 1 ≤ n) (hsmall : n < 2 ^ 31) :
    ∃ vp, vstringAlloc n = .ok vp ∧ vp.Holds [] ∧ vp.Terminated := by
  obtain ⟨n, rfl⟩ := Int.eq_ofNat_of_zero_le (show 0 ≤ n by omega)
  have hlen : 1 ≤ n := Int.ofNat_le.1 hn
  have hnew : (vstringReset ⟨List.replicate n mblockFiller, n, 0, 0⟩).Holds [] :=
    ⟨List.length_replicate, Nat.zero_add _, rfl, rfl, hlen, Int.ofNat_lt.1 hsmall⟩
  obtain ⟨data, hst, hh, hterm⟩ := hnew.storeNull hlen
  refine ⟨_, ?_, hh, hterm⟩
  rw [vstringAlloc, if_neg (by omega)]
  exact bind_ok_iff.2 ⟨data, hst, rfl⟩

/-! ## Runs -/

namespace VstringOp

/-- The bytes after a list of calls. -/
def applyAll (s : Bytes) (ops : List VstringOp) : Bytes := ops.foldl apply s

/-- Make a list of calls. -/
def execAll (vp : Vbuf) (ops : List VstringOp) : Except Fault Vbuf := ops.foldlM exec vp

/-- Each call is given what it may read, and leaves less than `2 ^ 30` bytes. -/
def Fits (s : Bytes) : List VstringOp → Prop
  | [] => True
  | op :: ops => op.Ok ∧ (op.apply s).length < 2 ^ 30 ∧ Fits (op.apply s) ops

theorem execAll_spec {ops : List VstringOp} {vp : Vbuf} {s : Bytes} (h : vp.Holds s)
    (hfits : Fits s ops) : ∃ vp', execAll vp ops = .ok vp' ∧ vp'.Holds (applyAll s ops) ∧
      ∀ op ∈ ops.getLast?, op.Terminates → vp'.Terminated := by
  induction ops generalizing vp s with
  | nil => exact ⟨vp, rfl, h, nofun⟩
  | cons op ops ih =>
    obtain ⟨hok, hsize, hfits⟩ := hfits
    obtain ⟨vp', hop, hh, hterm⟩ := exec_spec h hok hsize
    obtain ⟨vp'', hops, hh', hlast⟩ := ih hh hfits
    refine ⟨vp'', bind_ok_iff.2 ⟨vp', hop, hops⟩, hh', ?_⟩
    cases ops with
    | nil =>
      obtain rfl : vp' = vp'' := Except.ok.inj hops
      simpa using hterm
    | cons op' ops => simpa using hlast

end VstringOp

/-- Any sequence of calls on a new string returns, with the bytes that the calls put together, and
with a null byte behind them if the last call terminates the string. -/
theorem vstring_refines {n : ℤ} (hn : 1 ≤ n) (hsmall : n < 2 ^ 31) {ops : List VstringOp}
    (hfits : VstringOp.Fits [] ops) :
    ∃ vp, (vstringAlloc n >>= (VstringOp.execAll · ops)) = .ok vp ∧
      vp.Holds (VstringOp.applyAll [] ops) ∧
      ∀ op ∈ ops.getLast?, op.Terminates → vp.Terminated := by
  obtain ⟨vp, halloc, hh, _⟩ := vstringAlloc_spec hn hsmall
  obtain ⟨vp', hops, hh', hlast⟩ := VstringOp.execAll_spec hh hfits
  exact ⟨vp', bind_ok_iff.2 ⟨vp, halloc, hops⟩, hh', hlast⟩

/-- A block of one byte grows three times, and a cut and a copy leave no null byte behind. -/
theorem vstring_refines_mixed :
    VstringOp.applyAll []
        [.strcpy [104, 101, 0], .memcat [108, 0, 108] 3, .truncate 4, .strncat [111, 33] 1] =
      [104, 101, 108, 0, 111] ∧
    ∃ vp, (vstringAlloc 1 >>= (VstringOp.execAll ·
        [.strcpy [104, 101, 0], .memcat [108, 0, 108] 3, .truncate 4, .strncat [111, 33] 1])) =
      .ok vp ∧
      vp.Holds (VstringOp.applyAll []
        [.strcpy [104, 101, 0], .memcat [108, 0, 108] 3, .truncate 4, .strncat [111, 33] 1]) ∧
      vp.Terminated := by
  refine ⟨by decide +kernel, ?_⟩
  have hfits : VstringOp.Fits []
      [.strcpy [104, 101, 0], .memcat [108, 0, 108] 3, .truncate 4, .strncat [111, 33] 1] := by
    simp [VstringOp.Fits, VstringOp.Ok, VstringOp.apply, strPrefix]
  obtain ⟨vp, hrun, hh, hterm⟩ := vstring_refines (n := 1) (by decide) (by decide) hfits
  exact ⟨vp, hrun, hh, hterm _ rfl trivial⟩

end Nowra
