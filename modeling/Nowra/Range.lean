import Nowra.Vstring

/-!
# Cutting a string down to a range

`vstring_range` is to keep the bytes from `start` to `end`, both included, where a negative index
counts from the end (`sliceOf`). It moves them to the front of the block, and makes the string as
much shorter as there were bytes in front of them (`rangeResult`).

So there are bytes behind the range if the string had some there. And as the call looks at `start`
to see if there is something to keep, it empties a string whose range begins at the first byte.
`vstringRange_iff` says for which ranges it does what it is for.
-/

namespace Nowra

/-! ## The call -/

/-- `memmove` in a block. -/
def memmove (data : Bytes) (dst src len : ℕ) : Except Fault Bytes :=
  if src + len ≤ data.length then storeAt data dst ((data.drop src).take len) else throw .outside

/-- `VSTRING_INCLEN` -/
def vstringInclen (vp : Vbuf) (incr : ℤ) : Vbuf :=
  { vp with ptr := (vp.ptr + incr).toNat, cnt := sizeTOf (vp.cnt - incr) }

/-- An index that is negative counts from the end, and not beyond the start. -/
def rangeIndex (len : ℕ) (i : ℤ) : ℤ :=
  if i < 0 then
    let i := intOf (sizeTOf (len + i))
    if i < 0 then 0 else i
  else i

/-- `newlen` -/
def rangeLen (start stop : ℤ) : ℕ :=
  if start > stop then 0 else sizeTOf (intOf (stop - start + 1))

/-- `start` and `newlen` after the checks against the length. -/
def rangeClamp (len : ℕ) (start stop : ℤ) : ℤ × ℕ :=
  let newlen := rangeLen start stop
  if newlen ≠ 0 then
    if start ≥ intOf len then (start, 0)
    else if stop ≥ intOf len then
      let stop := intOf (sizeTOf (len - 1))
      (start, rangeLen start stop)
    else (start, newlen)
  else (0, newlen)

/-- Cut a string. The index `end` is `stop`. -/
def vstringRange (vp : Vbuf) (start stop : ℤ) : Except Fault Vbuf :=
  let len := vp.ptr
  if len = 0 then pure vp
  else
    let (start, newlen) := rangeClamp len (rangeIndex len start) (rangeIndex len stop)
    if start ≠ 0 ∧ newlen ≠ 0 then do
      let data ← memmove vp.data 0 start.toNat newlen
      vstringTerminate (vstringInclen { vp with data := data } (-start))
    else vstringTerminate (vstringReset vp)

/-! ## What it is for -/

/-- The place in a string of length `n` that an index is for. -/
def sliceIndex (n : ℕ) (i : ℤ) : ℤ := if i < 0 then max 0 (n + i) else i

/-- The bytes from `start` to `stop`. -/
def sliceOf (s : Bytes) (start stop : ℤ) : Bytes :=
  (s.take (sliceIndex s.length stop + 1).toNat).drop (sliceIndex s.length start).toNat

/-- The call returns, with the range and a null byte behind it. -/
def KeepsRange (vp : Vbuf) (s : Bytes) (start stop : ℤ) : Prop :=
  ∃ vp', vstringRange vp start stop = .ok vp' ∧ vp'.Holds (sliceOf s start stop) ∧ vp'.Terminated

/-! ## What it does -/

theorem sliceIndex_nonneg (n : ℕ) (i : ℤ) : 0 ≤ sliceIndex n i := by
  unfold sliceIndex
  split <;> omega

theorem rangeIndex_eq {n : ℕ} (hn : n < 2 ^ 31) {i : ℤ} (hi : -2 ^ 31 ≤ i) :
    rangeIndex n i = sliceIndex n i := by
  unfold rangeIndex sliceIndex
  split
  · have hint : intOf (sizeTOf (n + i)) = n + i := by
      unfold intOf sizeTOf
      omega
    simp only [hint]
    split <;> omega
  · rfl

theorem sliceIndex_lt {n : ℕ} (hn : n < 2 ^ 31) {i : ℤ} (hi : i < 2 ^ 31) :
    sliceIndex n i < 2 ^ 31 := by
  unfold sliceIndex
  split <;> omega

/-- A range that is not empty has a length, even if the `int` overflows. -/
theorem rangeLen_eq_zero_iff {start stop : ℤ} (hstart : 0 ≤ start) (hstop : stop < 2 ^ 31) :
    rangeLen start stop = 0 ↔ stop < start := by
  unfold rangeLen
  split
  · exact iff_of_true rfl ‹_›
  · refine iff_of_false ?_ ‹_›
    unfold sizeTOf intOf
    omega

theorem rangeLen_eq {start stop : ℤ} (hle : start ≤ stop) (hlen : stop - start + 1 < 2 ^ 31) :
    rangeLen start stop = (stop - start + 1).toNat := by
  unfold rangeLen sizeTOf intOf
  rw [if_neg (by omega)]
  omega

/-- The range that is left after the checks has as many bytes as the string has of it. -/
theorem rangeClamp_eq {n a b : ℕ} (hpos : 0 < n) (hn : n < 2 ^ 31) (hb : b < 2 ^ 31) :
    rangeClamp n a b = if b < a then (0, 0) else if n ≤ a then (↑a, 0) else
      (↑a, min b (n - 1) - a + 1) := by
  have hlen : intOf n = n := intOf_eq (by omega) (by omega)
  have hlast : intOf (sizeTOf ((n : ℤ) - 1)) = n - 1 := by
    unfold intOf sizeTOf
    omega
  have hzero : rangeLen a b = 0 ↔ (b : ℤ) < a := rangeLen_eq_zero_iff (by omega) (by omega)
  simp only [rangeClamp, hlen, hlast, ge_iff_le, Int.ofNat_le, ne_eq, hzero, Int.ofNat_lt]
  by_cases hba : b < a
  · rw [if_neg (by simpa using hba), if_pos hba, hzero.2 (by omega)]
  · rw [if_pos hba, if_neg hba]
    by_cases hna : n ≤ a
    · rw [if_pos hna, if_pos hna]
    · rw [if_neg hna, if_neg hna]
      by_cases hnb : n ≤ b
      · rw [if_pos hnb, rangeLen_eq (by omega) (by omega)]
        exact congrArg _ (by omega)
      · rw [if_neg hnb, rangeLen_eq (by omega) (by omega)]
        exact congrArg _ (by omega)

/-- The bytes that are left : where something is moved, the range and as many bytes behind it as it
takes to fill the string. -/
def rangeResult (s : Bytes) (a b : ℕ) : Bytes :=
  if 0 < a ∧ a ≤ b ∧ a < s.length then
    let k := min b (s.length - 1) - a + 1
    (s.drop a).take k ++ (s.drop k).take (s.length - a - k)
  else []

/-- The call moves the bytes, or resets the string. -/
theorem vstringRange_eq {vp : Vbuf} {start stop : ℤ} (hpos : 0 < vp.ptr) (hsmall : vp.ptr < 2 ^ 31)
    (hstart : -2 ^ 31 ≤ start) (hstop : -2 ^ 31 ≤ stop) (hstop' : stop < 2 ^ 31) {a b : ℕ}
    (ha : sliceIndex vp.ptr start = a) (hb : sliceIndex vp.ptr stop = b) :
    vstringRange vp start stop =
      if 0 < a ∧ a ≤ b ∧ a < vp.ptr then do
        let data ← memmove vp.data 0 a (min b (vp.ptr - 1) - a + 1)
        vstringTerminate (vstringInclen { vp with data := data } (-a))
      else vstringTerminate (vstringReset vp) := by
  have hlt : (b : ℤ) < 2 ^ 31 := hb ▸ sliceIndex_lt hsmall hstop'
  unfold vstringRange
  simp only [rangeIndex_eq hsmall hstart, rangeIndex_eq hsmall hstop, ha, hb, hpos.ne', if_false,
    rangeClamp_eq hpos hsmall (show b < 2 ^ 31 by omega)]
  by_cases hba : b < a
  · rw [if_pos hba, if_neg (by simp), if_neg (by omega)]
  · rw [if_neg hba]
    by_cases hna : vp.ptr ≤ a
    · rw [if_pos hna, if_neg (by simp), if_neg (by omega)]
    · rw [if_neg hna]
      by_cases ha0 : 0 < a
      · rw [if_pos (by simp; omega), if_pos (by omega)]
        rfl
      · -- there is nothing in front of the range
        rw [if_neg (by simp; omega), if_neg (by omega)]

namespace Vbuf

variable {vp : Vbuf} {s : Bytes}

/-- A buffer holds one string. -/
theorem Holds.unique (h : vp.Holds s) {s' : Bytes} (h' : vp.Holds s') : s = s' :=
  h.contents.symm.trans h'.contents

theorem Holds.take (h : vp.Holds s) {n : ℕ} (hn : n ≤ vp.ptr) : vp.data.take n = s.take n := by
  rw [← h.contents, List.take_take, Nat.min_eq_left hn]

/-- Bytes of the string are what is read between its ends. -/
theorem Holds.slice (h : vp.Holds s) {a k : ℕ} (hk : a + k ≤ vp.ptr) :
    (vp.data.drop a).take k = (s.drop a).take k := by
  rw [List.take_drop, List.take_drop, h.take hk]

/-- A null byte goes behind the string if there is room for it. -/
theorem Holds.terminate_of_pos (h : vp.Holds s) (hcnt : 0 < vp.cnt) :
    ∃ vp', vstringTerminate vp = .ok vp' ∧ vp'.Holds s ∧ vp'.Terminated := by
  obtain ⟨data, hst, hh, ht⟩ := h.storeNull hcnt
  refine ⟨_, ?_, hh, ht⟩
  rw [vstringTerminate, if_neg (by omega)]
  exact bind_ok_iff.2 ⟨vp, rfl, bind_ok_iff.2 ⟨data, hst, rfl⟩⟩

/-- The bytes behind the first `a` are moved to the front, `k` of them. -/
theorem Holds.move (h : vp.Holds s) {a k : ℕ} (ha : 0 < a) (hk : a + k ≤ vp.ptr) :
    ∃ data, memmove vp.data 0 a k = .ok data ∧
      (vstringInclen { vp with data := data } (-a)).Holds
        ((s.drop a).take k ++ (s.drop k).take (s.length - a - k)) ∧
      0 < (vstringInclen { vp with data := data } (-a)).cnt := by
  have hroom := h.room
  have hblock := h.block
  have hused := h.used
  have hsmall := h.small
  have hptr : ((vp.ptr : ℤ) + -a).toNat = vp.ptr - a := by omega
  have hcnt : sizeTOf ((vp.cnt : ℤ) - -a) = vp.cnt + a := by
    unfold sizeTOf
    omega
  have hlen : ((vp.data.drop a).take k).length = k := by
    rw [List.length_take, List.length_drop]
    omega
  have hst : storeAt vp.data 0 ((vp.data.drop a).take k) =
      .ok ((vp.data.drop a).take k ++ vp.data.drop k) := by
    rw [storeAt, if_pos (by omega), hlen, List.take_zero, List.nil_append, Nat.zero_add]
    rfl
  refine ⟨_, (if_pos (by omega)).trans hst, ⟨?_, ?_, ?_, ?_, h.pos, hsmall⟩, ?_⟩
  · simp only [vstringInclen, List.length_append, hlen, List.length_drop]
    omega
  · simp only [vstringInclen, hptr, hcnt]
    omega
  · simp only [vstringInclen, hptr, List.length_append, List.length_take, List.length_drop]
    omega
  · simp only [vstringInclen, hptr]
    rw [List.take_append, hlen, List.take_of_length_le (by omega), h.slice hk,
      h.slice (show k + (vp.ptr - a - k) ≤ vp.ptr by omega), hused]
  · simp only [vstringInclen, hcnt]
    omega

/-- The call returns, with what is left. -/
theorem Holds.range (h : vp.Holds s) {start stop : ℤ} (hpos : 0 < vp.ptr)
    (hstart : -2 ^ 31 ≤ start) (hstop : -2 ^ 31 ≤ stop) (hstop' : stop < 2 ^ 31) {a b : ℕ}
    (ha : sliceIndex vp.ptr start = a) (hb : sliceIndex vp.ptr stop = b) :
    ∃ vp', vstringRange vp start stop = .ok vp' ∧ vp'.Holds (rangeResult s a b) ∧
      vp'.Terminated := by
  have hroom := h.room
  have hused := h.used
  have hsmall := h.small
  rw [vstringRange_eq hpos (by omega) hstart hstop hstop' ha hb, rangeResult, ← hused]
  split
  · rename_i hmove
    obtain ⟨data, hdata, hh, hcnt⟩ := h.move (k := min b (vp.ptr - 1) - a + 1) hmove.1 (by omega)
    obtain ⟨vp', hterm, hh', ht⟩ := hh.terminate_of_pos hcnt
    rw [← hused] at hh'
    exact ⟨vp', bind_ok_iff.2 ⟨data, hdata, hterm⟩, hh', ht⟩
  · exact h.reset.terminate_of_pos h.pos

end Vbuf

/-- The range is kept if and only if it is what is left. -/
theorem keepsRange_iff_eq {vp : Vbuf} {s : Bytes} (h : vp.Holds s) (hpos : 0 < s.length)
    {start stop : ℤ} (hstart : -2 ^ 31 ≤ start) (hstop : -2 ^ 31 ≤ stop) (hstop' : stop < 2 ^ 31)
    {a b : ℕ} (ha : sliceIndex s.length start = a) (hb : sliceIndex s.length stop = b) :
    KeepsRange vp s start stop ↔ sliceOf s start stop = rangeResult s a b := by
  rw [← h.used] at ha hb
  obtain ⟨vp', hrun, hh, ht⟩ := h.range (h.used ▸ hpos) hstart hstop hstop' ha hb
  constructor
  · rintro ⟨vp'', hrun', hh', -⟩
    obtain rfl := Except.ok.inj (hrun.symm.trans hrun')
    exact hh'.unique hh
  · intro heq
    exact ⟨vp', hrun, heq ▸ hh, ht⟩

/-- What is left is the range if and only if the range is empty, or begins behind the first byte and
goes up to the last one. -/
theorem sliceOf_eq_iff {s : Bytes} (hpos : 0 < s.length) {start stop : ℤ} {a b : ℕ}
    (ha : sliceIndex s.length start = a) (hb : sliceIndex s.length stop = b) :
    sliceOf s start stop = rangeResult s a b ↔
      b < a ∨ s.length ≤ a ∨ 0 < a ∧ s.length - 1 ≤ b := by
  have hslice : sliceOf s start stop = (s.take (b + 1)).drop a := by
    rw [sliceOf, ha, hb, Int.toNat_natCast, show ((b : ℤ) + 1).toNat = b + 1 by omega]
  have hlen : ((s.take (b + 1)).drop a).length = min (b + 1) s.length - a := by
    rw [List.length_drop, List.length_take]
  rw [hslice, rangeResult]
  split
  · rename_i hmove
    constructor
    · -- what is left is as long as the string is from `a` on
      intro heq
      have hcount := congrArg List.length heq
      simp only [hlen, List.length_append, List.length_take, List.length_drop] at hcount
      omega
    · intro hend
      have hk : min b (s.length - 1) - a + 1 = s.length - a := by omega
      simp only [hk, Nat.sub_self, List.take_zero, List.append_nil]
      rw [List.take_of_length_le (l := s) (by omega), List.take_of_length_le]
      rw [List.length_drop]
  · rename_i hreset
    constructor
    · intro heq
      have hcount := congrArg List.length heq
      rw [hlen, List.length_nil] at hcount
      omega
    · intro hempty
      refine List.length_eq_zero_iff.1 ?_
      rw [hlen]
      omega

/-- The range is kept in a string that is not empty if and only if the range is empty, or begins
behind the first byte and goes up to the last one. An empty string stays as it is, with or without a
null byte. -/
theorem vstringRange_iff {vp : Vbuf} {s : Bytes} (h : vp.Holds s) {start stop : ℤ}
    (hstart : -2 ^ 31 ≤ start ∧ start < 2 ^ 31) (hstop : -2 ^ 31 ≤ stop ∧ stop < 2 ^ 31) :
    KeepsRange vp s start stop ↔
      s = [] ∧ vp.Terminated ∨
      s ≠ [] ∧ (sliceIndex s.length stop < sliceIndex s.length start ∨
        s.length ≤ sliceIndex s.length start ∨
        0 < sliceIndex s.length start ∧ s.length - 1 ≤ sliceIndex s.length stop) := by
  rcases eq_or_ne s [] with rfl | hne
  · have hrun : vstringRange vp start stop = .ok vp := if_pos h.used
    have hslice : sliceOf [] start stop = [] := by
      rw [sliceOf, List.take_nil, List.drop_nil]
    constructor
    · rintro ⟨vp', hrun', -, ht⟩
      obtain rfl := Except.ok.inj (hrun.symm.trans hrun')
      exact Or.inl ⟨rfl, ht⟩
    · rintro (⟨-, ht⟩ | ⟨hne, -⟩)
      · exact ⟨vp, hrun, hslice.symm ▸ h, ht⟩
      · exact absurd rfl hne
  · have hpos : 0 < s.length := List.length_pos_iff.2 hne
    obtain ⟨a, ha⟩ := Int.eq_ofNat_of_zero_le (sliceIndex_nonneg s.length start)
    obtain ⟨b, hb⟩ := Int.eq_ofNat_of_zero_le (sliceIndex_nonneg s.length stop)
    rw [keepsRange_iff_eq h hpos hstart.1 hstop.1 hstop.2 ha hb, sliceOf_eq_iff hpos ha hb, ha, hb]
    constructor
    · intro hrange
      exact Or.inr ⟨hne, by omega⟩
    · rintro (⟨rfl, -⟩ | ⟨-, hrange⟩)
      · exact absurd rfl hne
      · omega

/-- The last three bytes of a string. -/
theorem vstringRange_iff_last : ∃ vp : Vbuf, vp.Holds [97, 98, 99, 100, 101] ∧
    KeepsRange vp [97, 98, 99, 100, 101] (-3) (-1) := by
  have hfits : VstringOp.Fits [] [.memcpy [97, 98, 99, 100, 101] 5] := by
    simp [VstringOp.Fits, VstringOp.Ok, VstringOp.apply]
  obtain ⟨vp₀, -, hh₀, -⟩ := vstringAlloc_spec (n := 8) (by decide) (by decide)
  obtain ⟨vp, -, hh, -⟩ := VstringOp.execAll_spec hh₀ hfits
  refine ⟨vp, hh, (vstringRange_iff hh (by decide) (by decide)).2 (Or.inr ⟨by decide, ?_⟩)⟩
  exact Or.inr (Or.inr (by decide))

/-- The first three bytes of a string are lost, and the two bytes in its middle are kept with two
others behind them. -/
theorem not_vstringRange : ∃ vp : Vbuf, vp.Holds [97, 98, 99, 100, 101] ∧
    ¬KeepsRange vp [97, 98, 99, 100, 101] 0 2 ∧
    (∃ vp', vstringRange vp 0 2 = .ok vp' ∧ vp'.Holds []) ∧
    ¬KeepsRange vp [97, 98, 99, 100, 101] 1 2 ∧
    ∃ vp', vstringRange vp 1 2 = .ok vp' ∧ vp'.Holds [98, 99, 99, 100] := by
  have hfits : VstringOp.Fits [] [.memcpy [97, 98, 99, 100, 101] 5] := by
    simp [VstringOp.Fits, VstringOp.Ok, VstringOp.apply]
  obtain ⟨vp₀, -, hh₀, -⟩ := vstringAlloc_spec (n := 8) (by decide) (by decide)
  obtain ⟨vp, -, hh, -⟩ := VstringOp.execAll_spec hh₀ hfits
  have hh : vp.Holds [97, 98, 99, 100, 101] := hh
  have hused : vp.ptr = 5 := hh.used
  have hpos : 0 < [97, 98, 99, 100, 101].length := by decide
  have hrange (i : ℕ) (hi : sliceIndex 5 i = i) : ∃ vp', vstringRange vp i 2 = .ok vp' ∧
      vp'.Holds (rangeResult [97, 98, 99, 100, 101] i 2) ∧ vp'.Terminated :=
    hh.range (by omega) (by omega) (by decide) (by decide) (hused ▸ hi) (by rw [hused]; rfl)
  refine ⟨vp, hh, ?_, ?_, ?_, ?_⟩
  · rw [keepsRange_iff_eq hh hpos (a := 0) (b := 2) (by decide) (by decide) (by decide) rfl rfl]
    decide
  · obtain ⟨vp', hrun, hh', -⟩ := hrange 0 rfl
    exact ⟨vp', hrun, hh'⟩
  · rw [keepsRange_iff_eq hh hpos (a := 1) (b := 2) (by decide) (by decide) (by decide) rfl rfl]
    decide
  · obtain ⟨vp', hrun, hh', -⟩ := hrange 1 rfl
    exact ⟨vp', hrun, hh'⟩

end Nowra
