import Nowra.Range

/-!
# Reserving space in a string

A request for space "always succeeds or never returns". What is missing goes through an `int`, so
the request succeeds for a length that is less than `2 ^ 31` above the room there is, or panics when
`myrealloc` is asked for a length that is no `int`. Any other length is cut to an `int`, which may
be negative or too small, and the request returns without the space (`vstringBufSpace_iff`).

The strings are those that any calls have made from a new one (`vstringSystem`), whatever their
arguments, as long as no call has gone outside a block. A string of `2 ^ 31` bytes or more is never
made (`Vbuf.holds_of_reach`).
-/

namespace Nowra

/-! ## Strings that can be made -/

/-- `VBUF_SKIP` -/
def vbufSkip (bp : Vbuf) : Vbuf :=
  let skipped := (((bp.data.drop bp.ptr).take bp.cnt).takeWhile (· ≠ 0)).length
  { bp with ptr := bp.ptr + skipped, cnt := bp.cnt - skipped }

/-- A call on a string. -/
inductive VstringCall
  | write (op : VstringOp)
  | addch (c : BitVec 8)
  | terminate
  | reset
  | space (len : ℤ)
  | range (start stop : BitVec 32)
  /-- Text is put behind the string with `sprintf`, and skipped. -/
  | skip (text : Bytes)

/-- What the call does. -/
def VstringCall.exec (vp : Vbuf) : VstringCall → Except Fault Vbuf
  | .write op => op.exec vp
  | .addch c => vstringAddch vp c
  | .terminate => vstringTerminate vp
  | .reset => pure (vstringReset vp)
  | .space len => vstringBufSpace vp (sizeTOf len)
  | .range start stop => vstringRange vp start.toInt stop.toInt
  | .skip text => do
    let data ← storeAt vp.data vp.ptr text
    pure (vbufSkip { vp with data := data })

/-- A string from `vstring_alloc` for any `int`, and any calls on it. -/
def vstringSystem : LTS Vbuf VstringCall where
  init vp := ∃ len : BitVec 32, vstringAlloc len.toInt = .ok vp
  step vp call vp' := call.exec vp = .ok vp'

/-- The space is there when the request returns, and the string is as it was. A length that is no
`int`, or a negative one, panics. Memory is not copied to where there is no space. -/
structure Reserves (vp : Vbuf) (len : ℤ) : Prop where
  room : ∀ vp', vstringBufSpace vp (sizeTOf len) = .ok vp' → 0 ≤ len ∧ len ≤ vp'.cnt ∧
    vp'.ptr = vp.ptr ∧ vp'.data.take vp.ptr = vp.data.take vp.ptr
  refused : len < 0 ∨ 2 ^ 31 ≤ len → ∃ p, vstringBufSpace vp (sizeTOf len) = .error (.panic p)
  copied : ∀ src : Bytes, len ≤ src.length → vstringMemcat vp src len ≠ .error .outside

/-! ## What a request does -/

namespace Vbuf

variable {vp : Vbuf} {s : Bytes}

/-- An extension is made if the new length is an `int`, and panics if not. -/
theorem Holds.extend_or (h : vp.Holds s) {incr : ℕ} (hincr : incr < 2 ^ 31) :
    vp.len + max vp.len incr < 2 ^ 31 ∧
      (∃ vp', vstringExtend vp incr = .ok vp' ∧ vp'.Holds s ∧ vp'.len = vp.len + max vp.len incr) ∨
    2 ^ 31 ≤ vp.len + max vp.len incr ∧ ∃ p, vstringExtend vp incr = .error (.panic p) := by
  rcases Nat.lt_or_ge (vp.len + max vp.len incr) (2 ^ 31) with hlt | hge
  · exact Or.inl ⟨hlt, h.extend hlt⟩
  · have hsmall := h.small
    have hlen : sizeTOf (vp.len + (if vp.len > sizeTOf incr then vp.len else sizeTOf incr : ℕ)) =
        vp.len + max vp.len incr := by
      rw [sizeTOf_natCast (by omega)]
      unfold sizeTOf
      split <;> omega
    have hneg : intOf (vp.len + max vp.len incr : ℕ) < 1 := by
      unfold intOf
      omega
    refine Or.inr ⟨hge, .requestedLength "myrealloc" (intOf (vp.len + max vp.len incr : ℕ)), ?_⟩
    unfold vstringExtend
    simp only [hlen]
    rw [if_pos hneg]
    rfl

/-- A request returns at once, extends the buffer or panics. -/
theorem Holds.space_or (h : vp.Holds s) (len : ℕ) {incr : ℕ}
    (hincr : ((len : ℤ) - vp.cnt) % 2 ^ 32 = incr) :
    (incr = 0 ∨ 2 ^ 31 ≤ incr) ∧ vstringBufSpace vp len = .ok vp ∨
    0 < incr ∧ incr < 2 ^ 31 ∧ vp.len + max vp.len incr < 2 ^ 31 ∧
      (∃ vp', vstringBufSpace vp len = .ok vp' ∧ vp'.Holds s ∧
        vp'.len = vp.len + max vp.len incr) ∨
    0 < incr ∧ incr < 2 ^ 31 ∧ 2 ^ 31 ≤ vp.len + max vp.len incr ∧
      ∃ p, vstringBufSpace vp len = .error (.panic p) := by
  unfold vstringBufSpace
  by_cases hpos : 0 < incr ∧ incr < 2 ^ 31
  · have hneed : intOf (sizeTOf (len - vp.cnt)) = incr := by
      unfold intOf sizeTOf
      omega
    simp only [hneed]
    rw [if_pos (by omega)]
    rcases h.extend_or hpos.2 with ⟨hlt, hext⟩ | ⟨hge, hext⟩
    · exact Or.inr (Or.inl ⟨hpos.1, hpos.2, hlt, hext⟩)
    · exact Or.inr (Or.inr ⟨hpos.1, hpos.2, hge, hext⟩)
  · have hneed : intOf (sizeTOf (len - vp.cnt)) ≤ 0 := by
      unfold intOf sizeTOf
      omega
    refine Or.inl ⟨by omega, ?_⟩
    simp only
    rw [if_neg (by omega)]
    rfl

theorem exists_incr (len : ℤ) (cnt : ℕ) :
    ∃ incr : ℕ, (len - cnt) % 2 ^ 32 = incr ∧ ((sizeTOf len : ℤ) - cnt) % 2 ^ 32 = incr :=
  ⟨((len - cnt) % 2 ^ 32).toNat, by omega, by unfold sizeTOf; omega⟩

/-- A request that returns keeps the bytes. -/
theorem Holds.of_space (h : vp.Holds s) {len : ℕ} {vp' : Vbuf}
    (hsp : vstringBufSpace vp len = .ok vp') : vp'.Holds s := by
  have hlen : ((len : ℤ) - vp.cnt) % 2 ^ 32 = (((len : ℤ) - vp.cnt) % 2 ^ 32).toNat := by omega
  rcases h.space_or len hlen with ⟨-, hok⟩ | ⟨-, -, -, vp'', hok, hh, -⟩ | ⟨-, -, -, p, hp⟩
  · exact Except.ok.inj (hok.symm.trans hsp) ▸ h
  · exact Except.ok.inj (hok.symm.trans hsp) ▸ hh
  · cases hp.symm.trans hsp

/-! ## Every string that can be made -/

theorem Holds.of_extend (h : vp.Holds s) {incr : ℕ} (hincr : incr < 2 ^ 31) {vp' : Vbuf}
    (hext : vstringExtend vp incr = .ok vp') : vp'.Holds s := by
  rcases h.extend_or hincr with ⟨-, vp'', hok, hh, -⟩ | ⟨-, p, hp⟩
  · exact Except.ok.inj (hok.symm.trans hext) ▸ hh
  · cases hp.symm.trans hext

/-- Bytes are only stored where there is room for them. -/
theorem Holds.of_store (h : vp.Holds s) {bytes data : Bytes}
    (hst : storeAt vp.data vp.ptr bytes = .ok data) : bytes.length ≤ vp.cnt ∧
      data.length = vp.len ∧ data.take (vp.ptr + bytes.length) = s ++ bytes := by
  have hfit : bytes.length ≤ vp.cnt := by
    unfold storeAt at hst
    split at hst
    · have hroom := h.room
      have hblock := h.block
      omega
    · cases hst
  obtain ⟨data', hst', hlen, htake⟩ := h.store bytes hfit
  obtain rfl := Except.ok.inj (hst'.symm.trans hst)
  exact ⟨hfit, hlen, htake⟩

/-- What is stored at the position does not change the string. -/
theorem Holds.keep (h : vp.Holds s) {bytes data : Bytes}
    (hst : storeAt vp.data vp.ptr bytes = .ok data) : Holds { vp with data := data } s := by
  obtain ⟨-, hlen, htake⟩ := h.of_store hst
  refine ⟨hlen, h.room, h.used, ?_, h.pos, h.small⟩
  have hcut := congrArg (List.take vp.ptr) htake
  rwa [List.take_take, Nat.min_eq_left (Nat.le_add_right _ _),
    List.take_append_of_le_length h.used.le, List.take_of_length_le h.used.ge] at hcut

/-- The buffer holds some string. -/
def Sound (vp : Vbuf) : Prop := ∃ s, vp.Holds s

theorem Sound.put (turns : ℕ) {c : BitVec 8} {vp' : Vbuf} (h : vp.Sound)
    (hput : vbufPut turns vp c = .ok vp') : vp'.Sound := by
  have hstore : ∀ {vp : Vbuf} {data : Bytes}, vp.Sound →
      storeAt vp.data vp.ptr [c] = .ok data →
      Sound { vp with data := data, cnt := vp.cnt - 1, ptr := vp.ptr + 1 } := by
    rintro vp data ⟨s, h⟩ hst
    obtain ⟨hfit, hlen, htake⟩ := h.of_store hst
    exact ⟨_, h.advance [c] hfit hlen htake⟩
  induction turns generalizing vp with
  | zero =>
    unfold vbufPut at hput
    split at hput
    · obtain ⟨data, hst, heq⟩ := bind_ok_iff.1 hput
      exact Except.ok.inj heq ▸ hstore h hst
    · cases hput
  | succ turns ih =>
    unfold vbufPut at hput
    split at hput
    · obtain ⟨data, hst, heq⟩ := bind_ok_iff.1 hput
      exact Except.ok.inj heq ▸ hstore h hst
    · obtain ⟨vp₁, hext, hput⟩ := bind_ok_iff.1 hput
      obtain ⟨s, h⟩ := h
      exact ih ⟨s, h.of_extend (show 0 < 2 ^ 31 by decide) hext⟩ hput

theorem Sound.puts {src : Bytes} {vp' : Vbuf} (h : vp.Sound) (hput : vstringPuts vp src = .ok vp') :
    vp'.Sound := by
  induction src generalizing vp with
  | nil => cases hput
  | cons c src ih =>
    unfold vstringPuts at hput
    split at hput
    · exact Except.ok.inj hput ▸ h
    · obtain ⟨vp₁, hadd, hput⟩ := bind_ok_iff.1 hput
      exact ih (h.put 32 hadd) hput

theorem Sound.putn {src : Bytes} {len : ℤ} {vp' : Vbuf} (h : vp.Sound)
    (hput : vstringPutn vp src len = .ok vp') : vp'.Sound := by
  induction src generalizing vp len with
  | nil =>
    unfold vstringPutn at hput
    split at hput
    · cases hput
    · exact Except.ok.inj hput ▸ h
  | cons c src ih =>
    unfold vstringPutn at hput
    split at hput
    · obtain ⟨vp₁, hadd, hput⟩ := bind_ok_iff.1 hput
      exact ih (h.put 32 hadd) hput
    · exact Except.ok.inj hput ▸ h

theorem Sound.terminate {vp' : Vbuf} (h : vp.Sound) (hterm : vstringTerminate vp = .ok vp') :
    vp'.Sound := by
  obtain ⟨s, h⟩ := h
  obtain ⟨vp₁, hsp, hterm⟩ := bind_ok_iff.1 hterm
  obtain ⟨data, hst, heq⟩ := bind_ok_iff.1 hterm
  obtain rfl := Except.ok.inj heq
  have hh : vp₁.Holds s := by
    split at hsp
    · exact h.of_space hsp
    · exact Except.ok.inj hsp ▸ h
  exact ⟨s, hh.keep hst⟩

theorem Sound.reset (h : vp.Sound) : (vstringReset vp).Sound := by
  obtain ⟨s, h⟩ := h
  exact ⟨_, h.reset⟩

/-- Memory is copied behind the string where it fits. -/
theorem Sound.memcat {src : Bytes} {len : ℤ} {vp' : Vbuf} (h : vp.Sound)
    (hcat : vstringMemcat vp src len = .ok vp') : vp'.Sound := by
  obtain ⟨s, h⟩ := h
  obtain ⟨vp₁, hsp, hcat⟩ := bind_ok_iff.1 hcat
  obtain ⟨bytes, hread, hcat⟩ := bind_ok_iff.1 hcat
  obtain ⟨data, hst, heq⟩ := bind_ok_iff.1 hcat
  obtain rfl := Except.ok.inj heq
  have hh := h.of_space hsp
  unfold memRead at hread
  split at hread
  · cases hread
  · obtain rfl := Except.ok.inj hread
    obtain ⟨len, rfl⟩ := Int.eq_ofNat_of_zero_le (show 0 ≤ len by omega)
    rw [Int.toNat_natCast] at hst
    have hlen : (src.take len).length = len := List.length_take_of_le (by omega)
    obtain ⟨hfit, hdata, htake⟩ := hh.of_store hst
    have hadd := hh.advance _ hfit hdata htake
    have hend : len + vp₁.ptr ≤ (s ++ src.take len).length := by
      rw [List.length_append, hlen, hh.used, Nat.add_comm]
    exact ⟨_, hadd.atOffset hend⟩

/-- `vstring_memcpy` is `vstring_memcat` to a string that is reset. -/
theorem vstringMemcpy_eq (h : vp.Holds s) (src : Bytes) (len : ℤ) :
    vstringMemcpy vp src len = vstringMemcat (vstringReset vp) src len := by
  unfold vstringMemcpy vstringMemcat
  cases hsp : vstringBufSpace (vstringReset vp) (sizeTOf len) with
  | error e => rfl
  | ok vp' =>
    have hptr : vp'.ptr = 0 := (h.reset.of_space hsp).used
    simp only [bind, Except.bind, hptr, Nat.cast_zero, add_zero]

theorem Sound.memcpy {src : Bytes} {len : ℤ} {vp' : Vbuf} (h : vp.Sound)
    (hcpy : vstringMemcpy vp src len = .ok vp') : vp'.Sound := by
  obtain ⟨s, hh⟩ := h
  rw [vstringMemcpy_eq hh] at hcpy
  exact (Sound.reset ⟨s, hh⟩).memcat hcpy

theorem Sound.truncate {len : ℤ} {vp' : Vbuf} (h : vp.Sound)
    (hcut : vstringTruncate vp len = .ok vp') : vp'.Sound := by
  unfold vstringTruncate at hcut
  split at hcut
  · cases hcut
  · split at hcut
    · obtain ⟨s, h⟩ := h
      have hused := h.used
      obtain rfl := Except.ok.inj hcut
      obtain ⟨len, rfl⟩ := Int.eq_ofNat_of_zero_le (show 0 ≤ len by omega)
      exact ⟨_, h.atOffset (by omega)⟩
    · exact Except.ok.inj hcut ▸ h

theorem Sound.write {op : VstringOp} {vp' : Vbuf} (h : vp.Sound) (hop : op.exec vp = .ok vp') :
    vp'.Sound := by
  cases op with
  | strcpy src =>
    obtain ⟨vp₁, hput, hterm⟩ := bind_ok_iff.1 hop
    exact (h.reset.puts hput).terminate hterm
  | strncpy src len =>
    obtain ⟨vp₁, hput, hterm⟩ := bind_ok_iff.1 hop
    exact (h.reset.putn hput).terminate hterm
  | strcat src =>
    obtain ⟨vp₁, hput, hterm⟩ := bind_ok_iff.1 hop
    exact (h.puts hput).terminate hterm
  | strncat src len =>
    obtain ⟨vp₁, hput, hterm⟩ := bind_ok_iff.1 hop
    exact (h.putn hput).terminate hterm
  | memcpy src len => exact h.memcpy hop
  | memcat src len => exact h.memcat hop
  | truncate len => exact h.truncate hop

theorem Sound.range {start stop : BitVec 32} {vp' : Vbuf} (h : vp.Sound)
    (hcut : vstringRange vp start.toInt stop.toInt = .ok vp') : vp'.Sound := by
  obtain ⟨s, h⟩ := h
  rcases Nat.eq_zero_or_pos vp.ptr with hzero | hpos
  · exact ⟨s, Except.ok.inj ((if_pos hzero).symm.trans hcut) ▸ h⟩
  · obtain ⟨a, ha⟩ := Int.eq_ofNat_of_zero_le (sliceIndex_nonneg vp.ptr start.toInt)
    obtain ⟨b, hb⟩ := Int.eq_ofNat_of_zero_le (sliceIndex_nonneg vp.ptr stop.toInt)
    obtain ⟨vp'', hok, hh, -⟩ := h.range hpos start.le_toInt stop.le_toInt BitVec.toInt_lt ha hb
    exact ⟨_, Except.ok.inj (hok.symm.trans hcut) ▸ hh⟩

/-- The position is moved over bytes that are there. -/
theorem Holds.skip (h : vp.Holds s) : (vbufSkip vp).Sound := by
  have hroom := h.room
  have hblock := h.block
  have hle : (((vp.data.drop vp.ptr).take vp.cnt).takeWhile (· ≠ 0)).length ≤ vp.cnt :=
    (List.takeWhile_sublist _).length_le.trans (List.length_take_le _ _)
  unfold vbufSkip
  generalize (((vp.data.drop vp.ptr).take vp.cnt).takeWhile (· ≠ 0)).length = n at hle ⊢
  refine ⟨vp.data.take (vp.ptr + n), hblock, ?_, ?_, rfl, h.pos, h.small⟩
  · simp only
    omega
  · simp only [List.length_take]
    omega

/-- Every string that can be made holds its bytes, and its length is an `int`. -/
theorem holds_of_reach (h : vstringSystem.Reach vp) : ∃ s, vp.Holds s := by
  refine h.invariant (P := Sound) ?_ fun vp call vp' hs hst => ?_
  · rintro vp ⟨len, halloc⟩
    have hpos : 1 ≤ len.toInt := by
      unfold vstringAlloc at halloc
      split at halloc
      · cases halloc
      · omega
    obtain ⟨vp', hok, hh, -⟩ := vstringAlloc_spec hpos BitVec.toInt_lt
    exact ⟨[], Except.ok.inj (hok.symm.trans halloc) ▸ hh⟩
  · cases call with
    | write op => exact hs.write hst
    | addch c => exact hs.put 32 hst
    | terminate => exact hs.terminate hst
    | reset => exact Except.ok.inj hst ▸ hs.reset
    | space len =>
      obtain ⟨s, h⟩ := hs
      have hsp : vstringBufSpace vp (sizeTOf len) = .ok vp' := hst
      exact ⟨s, h.of_space hsp⟩
    | range start stop => exact hs.range hst
    | skip text =>
      obtain ⟨s, h⟩ := hs
      obtain ⟨data, hstore, heq⟩ := bind_ok_iff.1 hst
      exact Except.ok.inj heq ▸ (h.keep hstore).skip

/-! ## Which requests succeed or never return -/

/-- Where the space is there, memory is copied into it. -/
theorem Holds.memcat_ok (h : vp.Holds s) {len : ℕ} {vp' : Vbuf}
    (hsp : vstringBufSpace vp (sizeTOf len) = .ok vp') (hcnt : len ≤ vp'.cnt) {src : Bytes}
    (hlen : (len : ℤ) ≤ src.length) : vstringMemcat vp src len ≠ .error .outside := by
  have hread : memRead src len = .ok (src.take len) := by
    rw [memRead, if_neg (by omega), Int.toNat_natCast]
    rfl
  have hfit : (src.take len).length ≤ vp'.cnt := (List.length_take_le _ _).trans hcnt
  obtain ⟨data, hst, -⟩ := (h.of_space hsp).store (src.take len) hfit
  have hok : vstringMemcat vp src len =
      .ok (vstringAtOffset { vp' with data := data } (len + vp'.ptr)) :=
    bind_ok_iff.2 ⟨vp', hsp, bind_ok_iff.2 ⟨_, hread, bind_ok_iff.2 ⟨data, hst, rfl⟩⟩⟩
  rw [hok]
  intro h
  cases h

/-- A request that returns with the space has done what it is for. -/
theorem Holds.reserves (h : vp.Holds s) {len : ℕ} {vp' : Vbuf}
    (hsp : vstringBufSpace vp (sizeTOf len) = .ok vp') (hcnt : len ≤ vp'.cnt) :
    Reserves vp len where
  room vp'' hsp'' := by
    obtain rfl := Except.ok.inj (hsp.symm.trans hsp'')
    have hh := h.of_space hsp
    have hptr : vp'.ptr = vp.ptr := hh.used.trans h.used.symm
    refine ⟨by omega, by omega, hptr, ?_⟩
    rw [h.contents, ← hptr, hh.contents]
  refused hlen := by
    have hroom := (h.of_space hsp).room
    have hsmall := (h.of_space hsp).small
    omega
  copied src hsrc := h.memcat_ok hsp hcnt hsrc

theorem reserves_of_panic {len : ℤ} {p : Panic}
    (hp : vstringBufSpace vp (sizeTOf len) = .error (.panic p)) : Reserves vp len where
  room vp' hsp := by cases hp.symm.trans hsp
  refused _ := ⟨p, hp⟩
  copied src _ := by
    have hcat : vstringMemcat vp src len = .error (.panic p) := bind_error_iff.2 (Or.inl hp)
    rw [hcat]
    exact nofun

end Vbuf

/-- A request of any string for any `ssize_t` succeeds or never returns if and only if the length is
not negative and less than `2 ^ 31` above the room there is, or what is missing is cut to a positive
`int` that makes the new length of the buffer no `int`. -/
theorem vstringBufSpace_iff {vp : Vbuf} (h : vstringSystem.Reach vp) {len : ℤ}
    (hlen : -2 ^ 63 ≤ len ∧ len < 2 ^ 63) :
    Reserves vp len ↔ 0 ≤ len ∧ len < vp.cnt + 2 ^ 31 ∨
      0 < (len - vp.cnt) % 2 ^ 32 ∧ (len - vp.cnt) % 2 ^ 32 < 2 ^ 31 ∧
        2 ^ 31 ≤ vp.len + max (vp.len : ℤ) ((len - vp.cnt) % 2 ^ 32) := by
  obtain ⟨s, hs⟩ := Vbuf.holds_of_reach h
  have hroom := hs.room
  have hsmall := hs.small
  obtain ⟨incr, hincr, hincr'⟩ := Vbuf.exists_incr len vp.cnt
  rw [hincr]
  rcases hs.space_or (sizeTOf len) hincr' with ⟨hcut, hok⟩ |
    ⟨hpos, hint, hext, vp', hok, hh, hnew⟩ | ⟨hpos, hint, hext, p, hp⟩
  · constructor
    · intro hr
      obtain ⟨h0, hle, -⟩ := hr.room vp hok
      exact Or.inl ⟨h0, by omega⟩
    · rintro (⟨h0, hlt⟩ | ⟨hpos, hint, -⟩)
      · obtain ⟨len, rfl⟩ := Int.eq_ofNat_of_zero_le h0
        exact hs.reserves hok (by omega)
      · omega
  · have hroom' := hh.room
    have hsmall' := hh.small
    have hused := hh.used.trans hs.used.symm
    constructor
    · intro hr
      obtain ⟨h0, hle, -⟩ := hr.room vp' hok
      exact Or.inl ⟨h0, by omega⟩
    · rintro (⟨h0, hlt⟩ | ⟨-, -, hbig⟩)
      · obtain ⟨len, rfl⟩ := Int.eq_ofNat_of_zero_le h0
        exact hs.reserves hok (by omega)
      · omega
  · refine iff_of_true (Vbuf.reserves_of_panic hp) (Or.inr ⟨?_, ?_, ?_⟩)
    · omega
    · omega
    · omega

/-- A new string has the space for more bytes than it was made with. -/
theorem vstringBufSpace_iff_more : ∃ vp, vstringSystem.Reach vp ∧ vp.len = 100 ∧
    Reserves vp 1000 := by
  have halloc : (vstringAlloc 100).toOption.any (fun vp => vp.len = 100) = true := by
    decide +kernel
  obtain ⟨vp, hvp, hlen⟩ := (Option.any_eq_true _ _).1 halloc
  have hreach : vstringSystem.Reach vp :=
    ⟨[], vp, ⟨100#32, toOption_eq_some hvp⟩, .nil⟩
  exact ⟨vp, hreach, of_decide_eq_true hlen,
    (vstringBufSpace_iff hreach (by decide)).2 (Or.inl (by omega))⟩

/-- On a new string, a request for `-1` bytes returns, as does one for `2 ^ 32`, and the copy of
`-1` bytes goes outside the block. -/
theorem not_vstringBufSpace : ∃ vp, vstringSystem.Reach vp ∧ ¬Reserves vp (-1) ∧
    vstringMemcpy vp [] (-1) = .error .outside ∧ ¬Reserves vp (2 ^ 32) := by
  have halloc : (vstringAlloc 100).toOption.any (fun vp => vp.len = 100 ∧ vp.cnt = 100) = true := by
    decide +kernel
  obtain ⟨vp, hvp, hobs⟩ := (Option.any_eq_true _ _).1 halloc
  obtain ⟨hlen, hcnt⟩ := of_decide_eq_true hobs
  have hreturns {vp : Vbuf} (hcnt : vp.cnt = 100) {len : ℤ} (h : len = -1 ∨ len = 2 ^ 32) :
      vstringBufSpace vp (sizeTOf len) = .ok vp := by
    have hneed : ¬intOf (sizeTOf (sizeTOf len - vp.cnt)) > 0 := by
      rw [hcnt]
      rcases h with rfl | rfl
      · decide
      · decide
    rw [vstringBufSpace, if_neg hneed]
    rfl
  refine ⟨vp, ⟨[], vp, ⟨100#32, toOption_eq_some hvp⟩, .nil⟩, fun hr => ?_, ?_, fun hr => ?_⟩
  · exact absurd (hr.room vp (hreturns hcnt (Or.inl rfl))).1 (by decide)
  · exact bind_error_iff.2 (Or.inr ⟨_, @hreturns (vstringReset vp) hlen _ (Or.inl rfl), rfl⟩)
  · exact absurd (hr.room vp (hreturns hcnt (Or.inr rfl))).2.1 (by rw [hcnt]; decide)

end Nowra
