import Nowra.Reserve

/-!
# Buffers and their callbacks

`vbuf.c` and `vbuf.h` for any buffer : `VBUF_GET`, `VBUF_PUT`, `vbuf_read` and `vbuf_write` move
bytes as long as the count of the buffer says that they can, and call back when it does not. A
callback changes the buffer and what it keeps for itself, and returns whether it failed.

`vbuf_write` copies as much as there is room for at a time. Where the callback makes room or fails
(`PutReady`), that does to the buffer what `VBUF_PUT` does byte by byte until it fails, with as many
calls of the callback (`vbufWrite_eq_putEach`). The buffer of a string is one of these
(`vstring_putReady`).
-/

namespace Nowra

/-- A buffer, with what its callbacks keep. -/
structure VbufEnv (σ : Type) where
  bp : Vbuf
  env : σ

/-- A callback. It returns whether it failed. -/
abbrev VbufFn (σ : Type) := VbufEnv σ → Except Fault (Bool × VbufEnv σ)

namespace VbufEnv

variable {σ : Type}

/-! ## Reading and writing -/

/-- `VBUF_GET`, with `vbuf_get` as often as `turns` says. The count is a `size_t`. -/
def vbufGet (getReady : VbufFn σ) : ℕ → VbufEnv σ → Except Fault (Option (BitVec 8) × VbufEnv σ)
  | turns, b =>
    if (b.bp.cnt : ℤ) < 0 then
      match b.bp.data[b.bp.ptr]? with
      | none => throw .outside
      | some c =>
        pure (some c, { b with bp :=
          { b.bp with cnt := sizeTOf (b.bp.cnt + 1), ptr := b.bp.ptr + 1 } })
    else
      match turns with
      | 0 => throw .outside
      | turns + 1 => do
        let (failed, b) ← getReady b
        if failed then pure (none, b) else vbufGet getReady turns b

/-- `VBUF_PUT`, with `vbuf_put` as often as `turns` says. -/
def vbufPut (putReady : VbufFn σ) :
    ℕ → VbufEnv σ → BitVec 8 → Except Fault (Option (BitVec 8) × VbufEnv σ)
  | turns, b, c =>
    if b.bp.cnt > 0 then do
      let data ← storeAt b.bp.data b.bp.ptr [c]
      pure (some c, { b with bp :=
        { b.bp with data := data, cnt := b.bp.cnt - 1, ptr := b.bp.ptr + 1 } })
    else
      match turns with
      | 0 => throw .outside
      | turns + 1 => do
        let (failed, b) ← putReady b
        if failed then pure (none, b) else vbufPut putReady turns b c

/-- `-bp->cnt`, the bytes that can be read. -/
def unread (bp : Vbuf) : ℕ := sizeTOf (-bp.cnt)

/-- The loop of `vbuf_read`. Returns the count that is left and the bytes that were read. -/
def vbufReadLoop (getReady : VbufFn σ) :
    ℕ → VbufEnv σ → Bytes → ℤ → Except Fault (ℤ × Bytes × VbufEnv σ)
  | turns, b, buf, count =>
    if count > 0 then
      match turns with
      | 0 => throw .outside
      | turns + 1 => do
        let (failed, b) ← (if (b.bp.cnt : ℤ) ≥ 0 then getReady b else pure (false, b))
        if failed then pure (count, buf, b)
        else do
          let n := intOf (if sizeTOf count < unread b.bp then sizeTOf count else unread b.bp)
          let bytes ← memRead (b.bp.data.drop b.bp.ptr) n
          let bp : Vbuf := { b.bp with
            cnt := sizeTOf (b.bp.cnt + n), ptr := (b.bp.ptr + n).toNat }
          vbufReadLoop getReady turns { b with bp := bp } (buf ++ bytes) (count - n)
    else pure (count, buf, b)

/-- Bulk read from a buffer. Returns the count of the bytes and the bytes. -/
def vbufRead (getReady : VbufFn σ) (turns : ℕ) (b : VbufEnv σ) (len : ℤ) :
    Except Fault (ℤ × Bytes × VbufEnv σ) := do
  let (count, buf, b) ← b.vbufReadLoop getReady turns [] len
  pure (len - count, buf, b)

/-- The loop of `vbuf_write`. Returns the count that is left. -/
def vbufWriteLoop (putReady : VbufFn σ) :
    ℕ → VbufEnv σ → Bytes → ℤ → Except Fault (ℤ × VbufEnv σ)
  | turns, b, cp, count =>
    if count > 0 then
      match turns with
      | 0 => throw .outside
      | turns + 1 => do
        let (failed, b) ← (if b.bp.cnt ≤ 0 then putReady b else pure (false, b))
        if failed then pure (count, b)
        else do
          let n := intOf (if sizeTOf count < b.bp.cnt then sizeTOf count else b.bp.cnt)
          let data ← storeAt b.bp.data b.bp.ptr (← memRead cp n)
          let bp : Vbuf := { b.bp with
            data := data, cnt := sizeTOf (b.bp.cnt - n), ptr := (b.bp.ptr + n).toNat }
          vbufWriteLoop putReady turns { b with bp := bp } (cp.drop n.toNat) (count - n)
    else pure (count, b)

/-- Bulk write to a buffer. -/
def vbufWrite (putReady : VbufFn σ) (turns : ℕ) (b : VbufEnv σ) (buf : Bytes) (len : ℤ) :
    Except Fault (ℤ × VbufEnv σ) := do
  let (count, b) ← b.vbufWriteLoop putReady turns buf len
  pure (len - count, b)

/-- `VBUF_PUT` on bytes until the first failure. Returns how many were stored. -/
def putEach (putReady : VbufFn σ) (turns : ℕ) :
    VbufEnv σ → Bytes → Except Fault (ℕ × VbufEnv σ)
  | b, [] => pure (0, b)
  | b, c :: cs => do
    let (r, b) ← b.vbufPut putReady turns c
    match r with
    | none => pure (0, b)
    | some _ => do
      let (n, b) ← putEach putReady turns b cs
      pure (n + 1, b)

end VbufEnv

/-- A callback that counts its calls. -/
def VbufFn.counted {σ : Type} (fn : VbufFn σ) : VbufFn (σ × ℕ) := fun b => do
  let (failed, b') ← fn ⟨b.bp, b.env.1⟩
  pure (failed, ⟨b'.bp, (b'.env, b.env.2 + 1)⟩)

/-- `vstring_buf_put_ready` -/
def vstringBufPutReady : VbufFn Unit := fun b => do
  let bp ← vstringExtend b.bp 0
  pure (false, ⟨bp, b.env⟩)

/-- The buffer after bytes were stored at its position. -/
def Vbuf.stored (bp : Vbuf) (bytes : Bytes) : Vbuf :=
  { bp with
    data := bp.data.take bp.ptr ++ bytes ++ bp.data.drop (bp.ptr + bytes.length)
    cnt := bp.cnt - bytes.length, ptr := bp.ptr + bytes.length }

/-- What the writers rely on, for the buffers in `I` : there is room for as many bytes as the count
says, and the callback of a full buffer fails and leaves it as it is, or makes room and keeps what
was written. A callback that panics does not return. -/
structure PutReady {σ : Type} (fn : VbufFn σ) (I : VbufEnv σ → Prop) : Prop where
  room : ∀ b, I b → b.bp.ptr + b.bp.cnt ≤ b.bp.data.length
  small : ∀ b, I b → b.bp.cnt < 2 ^ 64
  store : ∀ b, I b → ∀ bytes : Bytes, bytes.length ≤ b.bp.cnt → I ⟨b.bp.stored bytes, b.env⟩
  ready : ∀ b, I b → b.bp.cnt = 0 → (∃ p, fn b = .error (.panic p)) ∨
    (∃ b', fn b = .ok (true, b') ∧ b'.bp = b.bp) ∨
    ∃ b', fn b = .ok (false, b') ∧ I b' ∧ 0 < b'.bp.cnt ∧
      b'.bp.data.take b'.bp.ptr = b.bp.data.take b.bp.ptr

/-! ## Storing bytes -/

namespace Vbuf

variable {bp : Vbuf}

theorem storeAt_eq {bytes : Bytes} (h : bp.ptr + bytes.length ≤ bp.data.length) :
    storeAt bp.data bp.ptr bytes = .ok (bp.stored bytes).data := by
  rw [storeAt, if_pos h]
  rfl

theorem stored_nil : bp.stored [] = bp := by
  simp [stored]

/-- Bytes that are stored one behind the other. -/
theorem stored_append {xs ys : Bytes} (h : bp.ptr + (xs.length + ys.length) ≤ bp.data.length) :
    bp.stored (xs ++ ys) = (bp.stored xs).stored ys := by
  have hpre : (bp.data.take bp.ptr ++ xs).length = bp.ptr + xs.length := by
    rw [List.length_append, List.length_take]
    omega
  have htake : (bp.stored xs).data.take (bp.ptr + xs.length) = bp.data.take bp.ptr ++ xs := by
    rw [← hpre]
    exact List.take_left
  have hdrop : (bp.stored xs).data.drop (bp.ptr + xs.length + ys.length) =
      bp.data.drop (bp.ptr + (xs.length + ys.length)) := by
    rw [← List.drop_drop, ← hpre]
    simp only [stored]
    rw [List.drop_left, List.drop_drop, Nat.add_assoc]
  simp only [stored, Vbuf.mk.injEq, List.length_append, true_and] at htake hdrop ⊢
  refine ⟨?_, by omega, by omega⟩
  rw [htake, hdrop]
  simp only [List.append_assoc]

theorem stored_data_length {bytes : Bytes} (h : bp.ptr + bytes.length ≤ bp.data.length) :
    (bp.stored bytes).data.length = bp.data.length := by
  simp only [stored, List.length_append, List.length_take, List.length_drop]
  omega

/-- The bytes written are followed by the bytes stored. -/
theorem stored_take {bytes : Bytes} (h : bp.ptr ≤ bp.data.length) :
    (bp.stored bytes).data.take (bp.stored bytes).ptr = bp.data.take bp.ptr ++ bytes := by
  have hlen : (bp.data.take bp.ptr ++ bytes).length = bp.ptr + bytes.length := by
    rw [List.length_append, List.length_take, Nat.min_eq_left h]
  rw [stored, ← hlen, List.take_left]

end Vbuf

/-! ## Bulk writes -/

namespace VbufEnv

variable {σ : Type} {fn : VbufFn σ} {I : VbufEnv σ → Prop} {b : VbufEnv σ}

/-- A character is stored where there is room. -/
theorem vbufPut_stored (h : PutReady fn I) (hb : I b) (hcnt : 0 < b.bp.cnt) (turns : ℕ)
    (c : BitVec 8) : b.vbufPut fn turns c = .ok (some c, ⟨b.bp.stored [c], b.env⟩) := by
  have hroom := h.room b hb
  have hst : storeAt b.bp.data b.bp.ptr [c] = .ok (b.bp.stored [c]).data :=
    Vbuf.storeAt_eq (by simp only [List.length_singleton]; omega)
  unfold vbufPut
  rw [if_pos hcnt]
  exact bind_ok_iff.2 ⟨_, hst, rfl⟩

/-- Bytes that there is room for are stored one by one. -/
theorem putEach_stored (h : PutReady fn I) {xs : Bytes} (turns : ℕ) (ys : Bytes) :
    ∀ {b : VbufEnv σ}, I b → xs.length ≤ b.bp.cnt → putEach fn turns b (xs ++ ys) =
      (fun r => (r.1 + xs.length, r.2)) <$> putEach fn turns ⟨b.bp.stored xs, b.env⟩ ys := by
  induction xs with
  | nil =>
    intro b _ _
    rw [Vbuf.stored_nil]
    exact (id_map _).symm
  | cons c xs ih =>
    intro b hb hlen
    rw [List.length_cons] at hlen
    have hroom := h.room b hb
    have hput := vbufPut_stored h hb (by omega) turns c
    have hone : [c].length ≤ b.bp.cnt := by
      rw [List.length_singleton]
      omega
    have hrest : xs.length ≤ (b.bp.stored [c]).cnt := by
      simp only [Vbuf.stored, List.length_singleton]
      omega
    have hall : b.bp.stored (c :: xs) = (b.bp.stored [c]).stored xs :=
      @Vbuf.stored_append _ [c] xs (by rw [List.length_singleton]; omega)
    rw [List.cons_append, putEach, hput]
    change (putEach fn turns ⟨b.bp.stored [c], b.env⟩ (xs ++ ys) >>=
      fun r => pure (r.1 + 1, r.2)) = _
    rw [ih (h.store b hb [c] hone) hrest, hall]
    cases putEach fn turns ⟨(b.bp.stored [c]).stored xs, b.env⟩ ys with
    | error e => rfl
    | ok r => rfl

/-- A callback that makes room is followed by the bytes. -/
theorem putEach_ready {b' : VbufEnv σ} (h : PutReady fn I) (hcnt : b.bp.cnt = 0)
    (hfn : fn b = .ok (false, b')) (hb' : I b') (hcnt' : 0 < b'.bp.cnt) (turns : ℕ)
    (c : BitVec 8) (cs : Bytes) :
    putEach fn (turns + 1) b (c :: cs) = putEach fn (turns + 1) b' (c :: cs) := by
  have hput : b.vbufPut fn (turns + 1) c = b'.vbufPut fn (turns + 1) c := by
    rw [vbufPut_stored h hb' hcnt', vbufPut, if_neg (by omega), hfn]
    exact vbufPut_stored h hb' hcnt' turns c
  rw [putEach, putEach, hput]

/-- A turn of the loop copies bytes that there is room for. -/
theorem writeTurn_eq (h : PutReady fn I) (hb : I b) (hcnt : 0 < b.bp.cnt) {cp : Bytes} {count : ℕ}
    (hlen : count ≤ cp.length) (hint : count < 2 ^ 31) (hpos : 0 < count) (turns : ℕ) :
    ∃ k, 0 < k ∧ k ≤ count ∧ k ≤ b.bp.cnt ∧
      (do
        let n := intOf (if sizeTOf count < b.bp.cnt then sizeTOf count else b.bp.cnt)
        let data ← storeAt b.bp.data b.bp.ptr (← memRead cp n)
        let bp : Vbuf := { b.bp with
          data := data, cnt := sizeTOf (b.bp.cnt - n), ptr := (b.bp.ptr + n).toNat }
        vbufWriteLoop fn turns ⟨bp, b.env⟩ (cp.drop n.toNat) (count - n)) =
      vbufWriteLoop fn turns ⟨b.bp.stored (cp.take k), b.env⟩ (cp.drop k) (count - k : ℕ) := by
  have hsmall := h.small b hb
  have hroom := h.room b hb
  have hsize : sizeTOf count = count := by
    unfold sizeTOf
    omega
  obtain ⟨k, hk⟩ : ∃ k : ℕ, (if count < b.bp.cnt then (count : ℤ) else b.bp.cnt) = k :=
    ⟨min count b.bp.cnt, by split <;> omega⟩
  have hk₁ : 0 < k ∧ k ≤ count ∧ k ≤ b.bp.cnt := by
    split at hk <;> omega
  have hn : intOf k = k := intOf_eq (by omega) (by omega)
  have htake : (cp.take k).length = k := List.length_take_of_le (by omega)
  have hread : memRead cp (k : ℤ) = .ok (cp.take k) := by
    rw [memRead, if_neg (by omega), Int.toNat_natCast]
    rfl
  have hst : storeAt b.bp.data b.bp.ptr (cp.take k) = .ok (b.bp.stored (cp.take k)).data :=
    Vbuf.storeAt_eq (by omega)
  have hstored : b.bp.stored (cp.take k) = { b.bp with
      data := (b.bp.stored (cp.take k)).data, cnt := sizeTOf (b.bp.cnt - k),
      ptr := ((b.bp.ptr : ℤ) + k).toNat } := by
    simp only [Vbuf.stored, Vbuf.mk.injEq, htake, true_and]
    unfold sizeTOf
    omega
  refine ⟨k, hk₁.1, hk₁.2.1, hk₁.2.2, ?_⟩
  simp only [hsize, hk, hn, hread]
  rw [Int.toNat_natCast, show ((count : ℤ) - k) = (count - k : ℕ) by omega]
  simp only [bind, Except.bind, hst]
  exact congrArg (fun bp => vbufWriteLoop fn turns ⟨bp, b.env⟩ (cp.drop k) (count - k : ℕ))
    hstored.symm

/-- The loop leaves the bytes that were not stored, and does to the buffer what byte-wise writing
does. -/
theorem vbufWriteLoop_eq (h : PutReady fn I) {turns : ℕ} : ∀ {b : VbufEnv σ} {cp : Bytes}
    {count : ℕ}, I b → count ≤ cp.length → count < 2 ^ 31 → count ≤ turns → ∀ depth,
      vbufWriteLoop fn turns b cp count =
        (fun r => ((count : ℤ) - r.1, r.2)) <$> putEach fn (depth + 1) b (cp.take count) := by
  induction turns with
  | zero =>
    intro b cp count _ _ _ hturns depth
    obtain rfl : count = 0 := Nat.le_zero.1 hturns
    unfold vbufWriteLoop
    rfl
  | succ turns ih =>
    intro b cp count hb hlen hint hturns depth
    rcases Nat.eq_zero_or_pos count with rfl | hpos
    · unfold vbufWriteLoop
      rfl
    -- a turn with room for bytes
    have hroom : ∀ {b : VbufEnv σ}, I b → 0 < b.bp.cnt → ∀ x, x = (do
        let n := intOf (if sizeTOf count < b.bp.cnt then sizeTOf count else b.bp.cnt)
        let data ← storeAt b.bp.data b.bp.ptr (← memRead cp n)
        let bp : Vbuf := { b.bp with
          data := data, cnt := sizeTOf (b.bp.cnt - n), ptr := (b.bp.ptr + n).toNat }
        vbufWriteLoop fn turns ⟨bp, b.env⟩ (cp.drop n.toNat) (count - n)) →
        x = (fun r => ((count : ℤ) - r.1, r.2)) <$> putEach fn (depth + 1) b (cp.take count) := by
      rintro b hb hcnt x rfl
      obtain ⟨k, hk, hle, hfit, hturn⟩ := writeTurn_eq h hb hcnt hlen hint hpos turns
      have htake : (cp.take k).length = k := List.length_take_of_le (hle.trans hlen)
      have hsplit : cp.take count = cp.take k ++ (cp.drop k).take (count - k) := by
        rw [← List.take_add, Nat.add_sub_cancel' hle]
      have hstored := h.store b hb (cp.take k) (htake.trans_le hfit)
      rw [hturn, hsplit, putEach_stored h (depth + 1) _ hb (htake.trans_le hfit), htake,
        ih hstored (by rw [List.length_drop]; omega) (by omega) (by omega) depth]
      cases putEach fn (depth + 1) ⟨b.bp.stored (cp.take k), b.env⟩
        ((cp.drop k).take (count - k)) with
      | error e => rfl
      | ok r =>
        refine congrArg Except.ok (Prod.ext ?_ rfl)
        simp only
        omega
    obtain ⟨c, cs, hcp⟩ : ∃ c cs, cp.take count = c :: cs := by
      refine List.exists_cons_of_ne_nil fun hnil => ?_
      have hl := congrArg List.length hnil
      rw [List.length_take_of_le hlen, List.length_nil] at hl
      omega
    unfold vbufWriteLoop
    rw [if_pos (by omega)]
    rcases Nat.eq_zero_or_pos b.bp.cnt with hcnt | hcnt
    · simp only [if_pos (show b.bp.cnt ≤ 0 by omega)]
      rcases h.ready b hb hcnt with ⟨p, hfn⟩ | ⟨b', hfn, -⟩ | ⟨b', hfn, hb', hcnt', -⟩
      · rw [hcp, putEach, vbufPut, if_neg (by omega), hfn]
        rfl
      · rw [hcp, putEach, vbufPut, if_neg (by omega), hfn]
        exact congrArg (fun n => Except.ok (n, b')) (by simp)
      · rw [hcp, putEach_ready h hcnt hfn hb' hcnt', ← hcp, hfn]
        exact hroom hb' hcnt' _ rfl
    · simp only [if_neg (show ¬b.bp.cnt ≤ 0 by omega)]
      exact hroom hb hcnt _ rfl

/-- Byte-wise writing ends, unless a callback panics, and the bytes that it stored are behind those
that were there. -/
theorem putEach_or (h : PutReady fn I) (depth : ℕ) {cs : Bytes} : ∀ {b : VbufEnv σ}, I b →
    (∃ p, putEach fn (depth + 1) b cs = .error (.panic p)) ∨
    ∃ n b', putEach fn (depth + 1) b cs = .ok (n, b') ∧
      b'.bp.data.take b'.bp.ptr = b.bp.data.take b.bp.ptr ++ cs.take n := by
  induction cs with
  | nil => exact fun {b} _ => Or.inr ⟨0, b, rfl, (List.append_nil _).symm⟩
  | cons c cs ih =>
    intro b hb
    have hroom : ∀ {b : VbufEnv σ}, I b → 0 < b.bp.cnt →
        (∃ p, putEach fn (depth + 1) b (c :: cs) = .error (.panic p)) ∨
        ∃ n b', putEach fn (depth + 1) b (c :: cs) = .ok (n, b') ∧
          b'.bp.data.take b'.bp.ptr = b.bp.data.take b.bp.ptr ++ (c :: cs).take n := by
      intro b hb hcnt
      have hle := h.room b hb
      have hfirst := @putEach_stored _ _ _ h [c] (depth + 1) cs _ hb hcnt
      rw [List.singleton_append] at hfirst
      rw [hfirst]
      rcases ih (h.store b hb [c] hcnt) with ⟨p, hp⟩ | ⟨n, b', hok, htake⟩
      · exact Or.inl ⟨p, by rw [hp]; rfl⟩
      · refine Or.inr ⟨n + 1, b', by rw [hok]; rfl, ?_⟩
        rw [htake, Vbuf.stored_take (by omega), List.take_succ_cons, List.append_assoc,
          List.singleton_append]
    rcases Nat.eq_zero_or_pos b.bp.cnt with hcnt | hcnt
    · rcases h.ready b hb hcnt with ⟨p, hfn⟩ | ⟨b', hfn, hsame⟩ | ⟨b', hfn, hb', hcnt', hkept⟩
      · refine Or.inl ⟨p, ?_⟩
        rw [putEach, vbufPut, if_neg (by omega), hfn]
        rfl
      · refine Or.inr ⟨0, b', ?_, by rw [hsame, List.take_zero, List.append_nil]⟩
        rw [putEach, vbufPut, if_neg (by omega), hfn]
        rfl
      · rw [putEach_ready h hcnt hfn hb' hcnt', ← hkept]
        exact hroom hb' hcnt'
    · exact hroom hb hcnt

end VbufEnv

/-- A callback does the same when its calls are counted. -/
theorem PutReady.counted {σ : Type} {fn : VbufFn σ} {I : VbufEnv σ → Prop} (h : PutReady fn I) :
    PutReady fn.counted fun b => I ⟨b.bp, b.env.1⟩ where
  room b hb := h.room _ hb
  small b hb := h.small _ hb
  store b hb bytes hlen := h.store _ hb bytes hlen
  ready b hb hcnt := by
    rcases h.ready _ hb hcnt with ⟨p, hfn⟩ | ⟨b', hfn, hsame⟩ | ⟨b', hfn, hb', hcnt', hkept⟩
    · exact Or.inl ⟨p, bind_error_iff.2 (Or.inl hfn)⟩
    · exact Or.inr (Or.inl ⟨_, bind_ok_iff.2 ⟨_, hfn, rfl⟩, hsame⟩)
    · exact Or.inr (Or.inr ⟨_, bind_ok_iff.2 ⟨_, hfn, rfl⟩, hb', hcnt', hkept⟩)

/-- A full string is extended, or the process panics. -/
theorem vstring_putReady : PutReady vstringBufPutReady fun b => b.bp.Sound where
  room b hb := by
    obtain ⟨s, hs⟩ := hb
    have := hs.room
    have := hs.block
    omega
  small b hb := by
    obtain ⟨s, hs⟩ := hb
    have := hs.room
    have := hs.small
    omega
  store b hb bytes hlen := by
    obtain ⟨s, hs⟩ := hb
    have hroom := hs.room
    have hblock := hs.block
    have hfit : b.bp.ptr + bytes.length ≤ b.bp.data.length := by omega
    have htake := @Vbuf.stored_take b.bp bytes (by omega)
    rw [hs.contents] at htake
    exact ⟨_, hs.advance bytes hlen ((Vbuf.stored_data_length hfit).trans hblock) htake⟩
  ready b hb hcnt := by
    obtain ⟨s, hs⟩ := hb
    have hroom := hs.room
    have hpos := hs.pos
    rcases hs.extend_or (show 0 < 2 ^ 31 by decide) with ⟨-, bp, hext, hs', hlen⟩ | ⟨-, p, hext⟩
    · have hroom' := hs'.room
      have hused : bp.ptr = b.bp.ptr := hs'.used.trans hs.used.symm
      refine Or.inr (Or.inr ⟨⟨bp, b.env⟩, bind_ok_iff.2 ⟨bp, hext, rfl⟩, ⟨s, hs'⟩, ?_, ?_⟩)
      · simp only
        omega
      · simp only
        rw [hs'.contents, hs.contents]
    · exact Or.inl ⟨p, bind_error_iff.2 (Or.inl hext)⟩

/-- Writing bytes at once and one by one do the same to the buffer, with the same calls of the
callback and the same count, which is how many of the bytes are stored behind what was there. -/
def WritesAgree {σ : Type} (fn : VbufFn σ) (b : VbufEnv σ) (buf : Bytes) (len : ℤ) : Prop :=
  ∀ turns depth : ℕ, len ≤ turns →
    VbufEnv.vbufWrite fn.counted turns ⟨b.bp, (b.env, 0)⟩ buf len =
      (fun r => ((r.1 : ℤ), r.2)) <$>
        VbufEnv.putEach fn.counted (depth + 1) ⟨b.bp, (b.env, 0)⟩ (buf.take len.toNat) ∧
    ((∃ p, VbufEnv.vbufWrite fn.counted turns ⟨b.bp, (b.env, 0)⟩ buf len = .error (.panic p)) ∨
      ∃ n b', VbufEnv.vbufWrite fn.counted turns ⟨b.bp, (b.env, 0)⟩ buf len = .ok (n, b') ∧
        b'.bp.data.take b'.bp.ptr = b.bp.data.take b.bp.ptr ++ (buf.take len.toNat).take n.toNat)

theorem PutReady.writesAgree {σ : Type} {fn : VbufFn σ} {I : VbufEnv σ → Prop}
    (h : PutReady fn I) {b : VbufEnv σ} (hb : I b) {buf : Bytes} {len : ℤ} (hpos : 0 ≤ len)
    (hint : len < 2 ^ 31) (hlen : len ≤ buf.length) : WritesAgree fn b buf len := by
  intro turns depth hturns
  obtain ⟨len, rfl⟩ := Int.eq_ofNat_of_zero_le hpos
  have heq : VbufEnv.vbufWrite fn.counted turns ⟨b.bp, (b.env, 0)⟩ buf len =
      (fun r => ((r.1 : ℤ), r.2)) <$>
        VbufEnv.putEach fn.counted (depth + 1) ⟨b.bp, (b.env, 0)⟩ (buf.take len) := by
    rw [VbufEnv.vbufWrite, VbufEnv.vbufWriteLoop_eq h.counted (b := ⟨b.bp, (b.env, 0)⟩) hb
      (by omega) (by omega) (by omega) depth]
    cases VbufEnv.putEach fn.counted (depth + 1) ⟨b.bp, (b.env, 0)⟩ (buf.take len) with
    | error e => rfl
    | ok r => exact congrArg (fun n => Except.ok (n, r.2)) (by simp)
  refine ⟨heq, ?_⟩
  rw [Int.toNat_natCast, heq]
  rcases @VbufEnv.putEach_or _ _ _ h.counted depth (buf.take len) ⟨b.bp, (b.env, 0)⟩ hb with
    ⟨p, hp⟩ | ⟨n, b', hok, htake⟩
  · exact Or.inl ⟨p, by rw [hp]; rfl⟩
  · exact Or.inr ⟨n, b', by rw [hok]; rfl, htake⟩

/-- Writing bytes at once agrees with writing them one by one, in any buffer whose callback makes
room or fails, and in any string that can be made. -/
theorem vbufWrite_eq_putEach :
    (∀ (σ : Type) (fn : VbufFn σ) (I : VbufEnv σ → Prop), PutReady fn I → ∀ b, I b →
      ∀ (buf : Bytes) (len : ℤ), 0 ≤ len → len < 2 ^ 31 → len ≤ buf.length →
        WritesAgree fn b buf len) ∧
    ∀ vp, vstringSystem.Reach vp → ∀ (buf : Bytes) (len : ℤ), 0 ≤ len → len < 2 ^ 31 →
      len ≤ buf.length → WritesAgree vstringBufPutReady ⟨vp, ()⟩ buf len :=
  ⟨fun _ _ _ h _ hb _ _ => h.writesAgree hb,
    fun _ h _ _ => vstring_putReady.writesAgree (Vbuf.holds_of_reach h)⟩

/-- Five bytes into a new string of two. -/
theorem vbufWrite_eq_putEach_five : ∃ vp, vstringSystem.Reach vp ∧ vp.len = 2 ∧
    WritesAgree vstringBufPutReady ⟨vp, ()⟩ [104, 101, 108, 108, 111] 5 := by
  have halloc : (vstringAlloc 2).toOption.any (fun vp => vp.len = 2) = true := by
    decide +kernel
  obtain ⟨vp, hvp, hlen⟩ := (Option.any_eq_true _ _).1 halloc
  have hreach : vstringSystem.Reach vp := ⟨[], vp, ⟨2#32, toOption_eq_some hvp⟩, .nil⟩
  exact ⟨vp, hreach, of_decide_eq_true hlen,
    vbufWrite_eq_putEach.2 vp hreach _ 5 (by decide) (by decide) (by decide)⟩

end Nowra
