import Nowra.Callbacks

/-!
# Reading a buffer that is refilled

A buffer for reading counts its unread bytes with a minus sign. The count is a `size_t`, so it is
never less than zero : `VBUF_GET` and `vbuf_read` call `get_ready` even where bytes are left, and
`VBUF_GET` calls it again right after the buffer was filled.

So what is delivered is a prefix of the stream if and only if no byte is asked for while one is
unread, and `VBUF_GET` is only called where the callback has come to the end of its data
(`delivers_iff`). Each `vbuf_read` then has to end where a chunk ends.
-/

namespace Nowra

/-! ## A stream of chunks -/

/-- What `get_ready` puts in the buffer : some bytes to read, somewhere in a block. -/
structure Chunk where
  before : Bytes
  bytes : Bytes
  behind : Bytes
  nonempty : bytes ≠ []
  small : bytes.length < 2 ^ 64

/-- What the calls of `get_ready` come to, one after the other. The end of data is `none`. -/
abbrev Chunks := ℕ → Option Chunk

/-- A `get_ready` that keeps the number of unread bytes at each of its calls. -/
def Chunks.getReady (src : Chunks) : VbufFn (List ℕ) := fun b =>
  let log := b.env ++ [VbufEnv.unread b.bp]
  match src b.env.length with
  | none => pure (true, ⟨b.bp, log⟩)
  | some c =>
    pure (false, ⟨{ b.bp with
      data := c.before ++ c.bytes ++ c.behind, cnt := sizeTOf (-c.bytes.length)
      ptr := c.before.length }, log⟩)

/-- The bytes of the first `k` answers. -/
def Chunks.bytes (src : Chunks) (k : ℕ) : Bytes :=
  (List.range k).flatMap fun i => (src i).elim [] Chunk.bytes

/-- A call that reads. -/
inductive ReadCall
  | get
  | read (len : BitVec 32)

/-- A buffer with the bytes that were delivered. -/
structure Reading where
  b : VbufEnv (List ℕ)
  delivered : Bytes

/-- Make a call. -/
def ReadCall.exec (src : Chunks) (turns : ℕ) (r : Reading) : ReadCall → Except Fault Reading
  | .get => do
    let (c, b) ← r.b.vbufGet src.getReady turns
    pure ⟨b, r.delivered ++ c.toList⟩
  | .read len => do
    let (_, buf, b) ← r.b.vbufRead src.getReady turns len.toInt
    pure ⟨b, r.delivered ++ buf⟩

/-- Nothing is in the buffer yet. -/
def Reading.start : Reading := ⟨⟨⟨[], 0, 0, 0⟩, []⟩, []⟩

/-- The calls return, what they deliver is the stream without loss or duplication as far as it goes,
and `get_ready` is called when no byte is unread. -/
def Delivers (src : Chunks) (calls : List ReadCall) : Prop :=
  ∃ turns r, calls.foldlM (ReadCall.exec src turns) .start = .ok r ∧
    r.delivered <+: src.bytes r.b.env.length ∧ ∀ n ∈ r.b.env, n = 0

/-- Where a read of `count` bytes ends that begins in front of the answer `k` : in front of which
answer, and how many bytes are unread there. -/
def Chunks.readEnd (src : Chunks) (k count : ℕ) : ℕ × ℕ :=
  if count = 0 then (k, 0)
  else
    match src k with
    | none => (k + 1, 0)
    | some c =>
      if count ≤ c.bytes.length then (k + 1, c.bytes.length - count)
      else src.readEnd (k + 1) (count - c.bytes.length)
termination_by count
decreasing_by
  have := List.length_pos_of_ne_nil c.nonempty
  omega

/-- From the answer `k` on, with so many bytes unread, no call asks for a byte while one is unread,
and `VBUF_GET` is only called at an end of data. -/
def Aligned (src : Chunks) : ℕ × ℕ → List ReadCall → Prop
  | _, [] => True
  | (k, rest), .get :: calls => rest = 0 ∧ src k = none ∧ Aligned src (k + 1, 0) calls
  | (k, rest), .read len :: calls =>
    if len.toInt ≤ 0 then Aligned src (k, rest) calls
    else rest = 0 ∧ Aligned src (src.readEnd k len.toInt.toNat) calls

/-! ## One call -/

theorem Chunks.bytes_succ (src : Chunks) (k : ℕ) :
    src.bytes (k + 1) = src.bytes k ++ (src k).elim [] Chunk.bytes := by
  simp [bytes, List.range_succ]

theorem Chunks.getReady_none {src : Chunks} {b : VbufEnv (List ℕ)} (h : src b.env.length = none) :
    src.getReady b = .ok (true, ⟨b.bp, b.env ++ [VbufEnv.unread b.bp]⟩) := by
  unfold getReady
  rw [h]
  rfl

theorem Chunks.getReady_some {src : Chunks} {b : VbufEnv (List ℕ)} {c : Chunk}
    (h : src b.env.length = some c) : src.getReady b = .ok (false, ⟨{ b.bp with
      data := c.before ++ c.bytes ++ c.behind, cnt := sizeTOf (-c.bytes.length)
      ptr := c.before.length }, b.env ++ [VbufEnv.unread b.bp]⟩) := by
  unfold getReady
  rw [h]
  rfl

theorem VbufEnv.unread_eq {bp : Vbuf} {n : ℕ} (hcnt : bp.cnt = sizeTOf (-n)) (hn : n < 2 ^ 64) :
    unread bp = n := by
  unfold unread sizeTOf at *
  omega

/-- The bytes `rest` are unread, and follow those that were delivered. No call of `get_ready` found
a byte unread. -/
structure Reading.Ahead (src : Chunks) (r : Reading) (rest : Bytes) : Prop where
  clean : ∀ n ∈ r.b.env, n = 0
  cnt : r.b.bp.cnt = sizeTOf (-rest.length)
  small : rest.length < 2 ^ 64
  data : rest <+: r.b.bp.data.drop r.b.bp.ptr
  sync : r.delivered ++ rest = src.bytes r.b.env.length

namespace Reading

variable {src : Chunks} {b : VbufEnv (List ℕ)} {delivered rest : Bytes}

theorem ahead_start (src : Chunks) : start.Ahead src [] where
  clean n hn := by cases hn
  cnt := rfl
  small := by decide
  data := List.nil_prefix
  sync := rfl

theorem Ahead.unread (h : Ahead src ⟨b, delivered⟩ rest) : VbufEnv.unread b.bp = rest.length :=
  VbufEnv.unread_eq h.cnt h.small

theorem Ahead.log (h : Ahead src ⟨b, delivered⟩ []) :
    ∀ n ∈ b.env ++ [VbufEnv.unread b.bp], n = 0 := by
  intro n hn
  rcases List.mem_append.1 hn with hn | hn
  · exact h.clean n hn
  · exact (List.mem_singleton.1 hn).trans h.unread

/-- `get_ready` comes to an end of data where the buffer is empty. -/
theorem Ahead.atEnd (h : Ahead src ⟨b, delivered⟩ []) (hsrc : src b.env.length = none) :
    Ahead src ⟨⟨b.bp, b.env ++ [VbufEnv.unread b.bp]⟩, delivered⟩ [] := by
  refine ⟨h.log, h.cnt, h.small, h.data, ?_⟩
  have hsync := h.sync
  simp only [List.length_append, List.length_singleton, List.append_nil] at hsync ⊢
  rw [Chunks.bytes_succ, hsrc, ← hsync]
  exact (List.append_nil _).symm

/-- `get_ready` fills an empty buffer. -/
theorem Ahead.filled (h : Ahead src ⟨b, delivered⟩ []) {c : Chunk}
    (hsrc : src b.env.length = some c) : Ahead src ⟨⟨{ b.bp with
      data := c.before ++ c.bytes ++ c.behind, cnt := sizeTOf (-c.bytes.length)
      ptr := c.before.length }, b.env ++ [VbufEnv.unread b.bp]⟩, delivered⟩ c.bytes := by
  refine ⟨h.log, rfl, c.small, ?_, ?_⟩
  · simp only [List.append_assoc, List.drop_left]
    exact List.prefix_append _ _
  · have hsync := h.sync
    simp only [List.length_append, List.length_singleton, List.append_nil] at hsync ⊢
    rw [Chunks.bytes_succ, hsrc, ← hsync]
    rfl

/-- Bytes are taken from the buffer. -/
theorem Ahead.take (h : Ahead src ⟨b, delivered⟩ rest) {n : ℕ} (hn : n ≤ rest.length) :
    memRead (b.bp.data.drop b.bp.ptr) n = .ok (rest.take n) ∧
    Ahead src ⟨⟨{ b.bp with cnt := sizeTOf (b.bp.cnt + n), ptr := ((b.bp.ptr : ℤ) + n).toNat },
      b.env⟩, delivered ++ rest.take n⟩ (rest.drop n) := by
  obtain ⟨tail, hdata⟩ := h.data
  have hcnt := h.cnt
  have hsmall := h.small
  simp only at hdata hcnt
  refine ⟨?_, h.clean, ?_, ?_, ?_, ?_⟩
  · rw [← hdata, memRead, if_neg (by rw [List.length_append]; omega), Int.toNat_natCast,
      List.take_append_of_le_length hn]
    rfl
  · simp only [hcnt, List.length_drop]
    unfold sizeTOf
    omega
  · rw [List.length_drop]
    omega
  · rw [show ((b.bp.ptr : ℤ) + n).toNat = b.bp.ptr + n by omega, ← List.drop_drop, ← hdata,
      List.drop_append_of_le_length hn]
    exact List.prefix_append _ _
  · simp only
    rw [List.append_assoc, List.take_append_drop]
    exact h.sync

/-- A turn of the loop at an end of data. -/
theorem readTurn_none (hsrc : src b.env.length = none) {count : ℤ} (hpos : 0 < count) (turns : ℕ)
    (buf : Bytes) : b.vbufReadLoop src.getReady (turns + 1) buf count =
      .ok (count, buf, ⟨b.bp, b.env ++ [VbufEnv.unread b.bp]⟩) := by
  unfold VbufEnv.vbufReadLoop
  rw [if_pos hpos]
  simp only [if_pos (Int.natCast_nonneg b.bp.cnt), Chunks.getReady_none hsrc]
  rfl

/-- A turn of the loop that finds a chunk takes what it needs of it. -/
theorem readTurn_some (h : Ahead src ⟨b, delivered⟩ []) {c : Chunk}
    (hsrc : src b.env.length = some c) {count : ℕ} (hpos : 0 < count) (hint : count < 2 ^ 31)
    (turns : ℕ) (buf : Bytes) : ∃ b', b'.env.length = b.env.length + 1 ∧
      Ahead src ⟨b', delivered ++ c.bytes.take count⟩ (c.bytes.drop count) ∧
      b.vbufReadLoop src.getReady (turns + 1) buf count =
        b'.vbufReadLoop src.getReady turns (buf ++ c.bytes.take count)
          (count - c.bytes.length : ℕ) := by
  have hfilled := h.filled hsrc
  have hunread := hfilled.unread
  have hsmall := c.small
  have hsize : sizeTOf count = count := by
    unfold sizeTOf
    omega
  obtain ⟨k, hk⟩ : ∃ k : ℕ, (if count < c.bytes.length then (count : ℤ) else c.bytes.length) = k :=
    ⟨min count c.bytes.length, by split <;> omega⟩
  have hk' : k = min count c.bytes.length := by
    split at hk <;> omega
  have hint' : intOf k = k := intOf_eq (by omega) (by omega)
  obtain ⟨hread, hahead⟩ := hfilled.take (n := k) (by omega)
  have htake : c.bytes.take k = c.bytes.take count := by
    rw [hk', List.take_eq_take_min (i := count)]
  have hdrop : c.bytes.drop k = c.bytes.drop count := by
    rw [hk', List.drop_eq_drop_min (i := count)]
  rw [htake, hdrop] at hahead
  rw [htake] at hread
  refine ⟨_, ?_, hahead, ?_⟩
  · simp only [List.length_append, List.length_singleton]
  · conv_lhs => unfold VbufEnv.vbufReadLoop
    rw [if_pos (by omega)]
    simp only [if_pos (Int.natCast_nonneg b.bp.cnt), Chunks.getReady_some hsrc, bind, Except.bind]
    simp only [hunread, hsize, hk, hint', hread]
    rw [show ((count : ℤ) - k) = (count - c.bytes.length : ℕ) by omega]
    rfl

/-- A read from an empty buffer takes as many bytes as it can get, and ends where `readEnd` says. -/
theorem readLoop_spec {turns : ℕ} : ∀ {b : VbufEnv (List ℕ)} {delivered buf : Bytes} {count : ℕ},
    Ahead src ⟨b, delivered⟩ [] → count < 2 ^ 31 →
    (count ≤ turns → ∃ x, b.vbufReadLoop src.getReady turns buf count = .ok x) ∧
    ∀ count' buf' b', b.vbufReadLoop src.getReady turns buf count = .ok (count', buf', b') →
      ∃ got rest, buf' = buf ++ got ∧ Ahead src ⟨b', delivered ++ got⟩ rest ∧
        (b'.env.length, rest.length) = src.readEnd b.env.length count := by
  have hzero : ∀ (turns : ℕ) (b : VbufEnv (List ℕ)) (buf : Bytes),
      b.vbufReadLoop src.getReady turns buf (0 : ℕ) = .ok (0, buf, b) := by
    intro turns b buf
    unfold VbufEnv.vbufReadLoop
    rfl
  have hdone : ∀ {turns : ℕ} {b : VbufEnv (List ℕ)} {delivered buf : Bytes},
      Ahead src ⟨b, delivered⟩ [] →
      (∃ x, b.vbufReadLoop src.getReady turns buf (0 : ℕ) = .ok x) ∧
      ∀ count' buf' b', b.vbufReadLoop src.getReady turns buf (0 : ℕ) = .ok (count', buf', b') →
        ∃ got rest, buf' = buf ++ got ∧ Ahead src ⟨b', delivered ++ got⟩ rest ∧
          (b'.env.length, rest.length) = src.readEnd b.env.length 0 := by
    intro turns b delivered buf h
    refine ⟨⟨_, hzero turns b buf⟩, fun count' buf' b' hok => ?_⟩
    obtain ⟨-, rfl, rfl⟩ : 0 = count' ∧ buf = buf' ∧ b = b' := by
      simpa using Except.ok.inj ((hzero turns b buf).symm.trans hok)
    refine ⟨[], [], (List.append_nil _).symm, by rwa [List.append_nil], ?_⟩
    rw [Chunks.readEnd, if_pos rfl]
    rfl
  induction turns with
  | zero =>
    intro b delivered buf count h hint
    rcases Nat.eq_zero_or_pos count with rfl | hpos
    · exact ⟨fun _ => (hdone h).1, (hdone h).2⟩
    · refine ⟨fun hle => absurd hle (by omega), fun count' buf' b' hok => ?_⟩
      unfold VbufEnv.vbufReadLoop at hok
      rw [if_pos (by omega)] at hok
      cases hok
  | succ turns ih =>
    intro b delivered buf count h hint
    rcases Nat.eq_zero_or_pos count with rfl | hpos
    · exact ⟨fun _ => (hdone h).1, (hdone h).2⟩
    have hcount : ¬count = 0 := by omega
    cases hsrc : src b.env.length with
    | none =>
      have hturn := @readTurn_none _ b hsrc count (by omega) turns buf
      refine ⟨fun _ => ⟨_, hturn⟩, fun count' buf' b' hok => ?_⟩
      obtain ⟨-, rfl, rfl⟩ := by simpa using Except.ok.inj (hturn.symm.trans hok)
      refine ⟨[], [], (List.append_nil _).symm, by rw [List.append_nil]; exact h.atEnd hsrc, ?_⟩
      rw [Chunks.readEnd, if_neg hcount, hsrc]
      simp only [List.length_append, List.length_singleton, List.length_nil]
    | some c =>
      obtain ⟨b₁, hlen, hahead, hturn⟩ := readTurn_some h hsrc hpos hint turns buf
      have hc := List.length_pos_of_ne_nil c.nonempty
      rw [hturn, Chunks.readEnd, if_neg hcount, hsrc]
      simp only
      by_cases hle : count ≤ c.bytes.length
      · rw [Nat.sub_eq_zero_of_le hle, hzero, if_pos hle]
        refine ⟨fun _ => ⟨_, rfl⟩, fun count' buf' b' hok => ?_⟩
        obtain ⟨-, rfl, rfl⟩ := by simpa using Except.ok.inj hok
        refine ⟨_, _, rfl, hahead, ?_⟩
        rw [hlen, List.length_drop]
      · rw [if_neg hle]
        rw [List.drop_eq_nil_of_le (by omega)] at hahead
        obtain ⟨hends, hspec⟩ :=
          @ih _ _ (buf ++ c.bytes.take count) (count - c.bytes.length) hahead (by omega)
        refine ⟨fun _ => hends (by omega), fun count' buf' b' hok => ?_⟩
        obtain ⟨got, rest, hbuf, hahead', hend⟩ := hspec count' buf' b' hok
        refine ⟨c.bytes.take count ++ got, rest, ?_, ?_, ?_⟩
        · rw [hbuf, List.append_assoc]
        · rwa [← List.append_assoc]
        · rw [hend, hlen]

/-- `get_ready` is called before anything is read, and its calls stay in the log. -/
theorem getReady_log {b' : VbufEnv (List ℕ)} {failed : Bool}
    (h : src.getReady b = .ok (failed, b')) : b'.env = b.env ++ [VbufEnv.unread b.bp] := by
  unfold Chunks.getReady at h
  split at h
  · rw [← (Prod.mk.inj (Except.ok.inj h)).2]
  · rw [← (Prod.mk.inj (Except.ok.inj h)).2]

theorem vbufGet_succ (turns : ℕ) : b.vbufGet src.getReady (turns + 1) =
    src.getReady b >>= fun r =>
      if r.1 then pure (none, r.2) else r.2.vbufGet src.getReady turns := by
  conv_lhs => unfold VbufEnv.vbufGet
  rw [if_neg (by omega)]

theorem vbufGet_log {turns : ℕ} : ∀ {b b' : VbufEnv (List ℕ)} {c : Option (BitVec 8)},
    b.vbufGet src.getReady turns = .ok (c, b') →
      (b.env ++ [VbufEnv.unread b.bp]) <+: b'.env := by
  induction turns with
  | zero =>
    intro b b' c h
    unfold VbufEnv.vbufGet at h
    rw [if_neg (by omega)] at h
    cases h
  | succ turns ih =>
    intro b b' c h
    rw [vbufGet_succ] at h
    obtain ⟨⟨failed, b₁⟩, hready, h⟩ := bind_ok_iff.1 h
    rw [← getReady_log hready]
    cases failed with
    | true =>
      obtain ⟨-, rfl⟩ := Prod.mk.inj (Except.ok.inj h)
      exact List.prefix_rfl
    | false => exact (List.prefix_append _ _).trans (ih h)

theorem readLoop_log {turns : ℕ} : ∀ {b b' : VbufEnv (List ℕ)} {buf buf' : Bytes}
    {count count' : ℤ}, b.vbufReadLoop src.getReady turns buf count = .ok (count', buf', b') →
      b.env <+: b'.env ∧ (0 < count → (b.env ++ [VbufEnv.unread b.bp]) <+: b'.env) := by
  induction turns with
  | zero =>
    intro b b' buf buf' count count' h
    unfold VbufEnv.vbufReadLoop at h
    split at h
    · cases h
    · rename_i hpos
      obtain ⟨-, -, rfl⟩ := by simpa using Except.ok.inj h
      exact ⟨List.prefix_rfl, fun h => absurd h hpos⟩
  | succ turns ih =>
    intro b b' buf buf' count count' h
    unfold VbufEnv.vbufReadLoop at h
    split at h
    · simp only [if_pos (Int.natCast_nonneg b.bp.cnt)] at h
      obtain ⟨⟨failed, b₁⟩, hready, h⟩ := bind_ok_iff.1 h
      have hlog : (b.env ++ [VbufEnv.unread b.bp]) <+: b'.env := by
        rw [← getReady_log hready]
        cases failed with
        | true =>
          obtain ⟨-, -, rfl⟩ := by simpa using Except.ok.inj h
          exact List.prefix_rfl
        | false =>
          obtain ⟨bytes, -, h⟩ := bind_ok_iff.1 h
          exact (ih h).1
      exact ⟨(List.prefix_append _ _).trans hlog, fun _ => hlog⟩
    · rename_i hpos
      obtain ⟨-, -, rfl⟩ := by simpa using Except.ok.inj h
      exact ⟨List.prefix_rfl, fun h => absurd h hpos⟩

/-! ## Sequences of calls -/

variable {r r' : Reading} {turns : ℕ}

theorem exec_log {call : ReadCall} (h : call.exec src turns r = .ok r') :
    r.b.env <+: r'.b.env := by
  cases call with
  | get =>
    obtain ⟨⟨c, b'⟩, hget, h⟩ := bind_ok_iff.1 h
    obtain rfl := Except.ok.inj h
    exact (List.prefix_append _ _).trans (vbufGet_log hget)
  | read len =>
    obtain ⟨⟨n, buf, b'⟩, hread, h⟩ := bind_ok_iff.1 h
    obtain ⟨⟨count, buf', b''⟩, hloop, hread⟩ := bind_ok_iff.1 hread
    obtain rfl := Except.ok.inj h
    obtain ⟨-, -, rfl⟩ := by simpa using Except.ok.inj hread
    exact (readLoop_log hloop).1

theorem foldlM_log {calls : List ReadCall} : ∀ {r : Reading},
    calls.foldlM (ReadCall.exec src turns) r = .ok r' → r.b.env <+: r'.b.env := by
  induction calls with
  | nil =>
    intro r h
    obtain rfl := Except.ok.inj h
    exact List.prefix_rfl
  | cons call calls ih =>
    intro r h
    obtain ⟨r₁, hcall, h⟩ := bind_ok_iff.1 h
    exact (exec_log hcall).trans (ih h)

/-- A `VBUF_GET` that returns without finding a byte unread is at an end of data. -/
theorem Ahead.get (h : Ahead src r rest) (hok : ReadCall.get.exec src turns r = .ok r')
    (hclean : ∀ n ∈ r'.b.env, n = 0) :
    rest = [] ∧ src r.b.env.length = none ∧ Ahead src r' [] ∧
      r'.b.env.length = r.b.env.length + 1 := by
  obtain ⟨b, delivered⟩ := r
  obtain ⟨⟨c, b'⟩, hget, hok⟩ := bind_ok_iff.1 hok
  obtain rfl := Except.ok.inj hok
  have hzero : rest.length = 0 :=
    hclean _ ((vbufGet_log hget).subset (by rw [← h.unread]; simp))
  obtain rfl := List.length_eq_zero_iff.1 hzero
  obtain _ | turns := turns
  · unfold VbufEnv.vbufGet at hget
    rw [if_neg (by omega)] at hget
    cases hget
  rw [vbufGet_succ] at hget
  cases hsrc : src b.env.length with
  | none =>
    simp only at hget
    rw [Chunks.getReady_none hsrc] at hget
    obtain ⟨rfl, rfl⟩ := Prod.mk.inj (Except.ok.inj hget)
    refine ⟨rfl, rfl, ?_, by simp⟩
    simpa using h.atEnd hsrc
  | some c =>
    simp only at hget
    rw [Chunks.getReady_some hsrc] at hget
    have hlog := vbufGet_log hget
    have hunread := (h.filled hsrc).unread
    have hc := hclean _ (hlog.subset (List.mem_append_right _ (List.mem_singleton_self _)))
    rw [hunread] at hc
    exact absurd (List.length_eq_zero_iff.1 hc) c.nonempty

/-- A `vbuf_read` that returns without finding a byte unread starts from an empty buffer. -/
theorem Ahead.read (h : Ahead src r rest) {len : BitVec 32} (hpos : 0 < len.toInt)
    (hok : (ReadCall.read len).exec src turns r = .ok r') (hclean : ∀ n ∈ r'.b.env, n = 0) :
    rest = [] ∧ ∃ rest', Ahead src r' rest' ∧
      (r'.b.env.length, rest'.length) = src.readEnd r.b.env.length len.toInt.toNat := by
  obtain ⟨b, delivered⟩ := r
  obtain ⟨⟨n, buf, b'⟩, hread, hok⟩ := bind_ok_iff.1 hok
  obtain ⟨⟨count, buf', b''⟩, hloop, hread⟩ := bind_ok_iff.1 hread
  obtain rfl := Except.ok.inj hok
  obtain ⟨-, rfl, rfl⟩ := by simpa using Except.ok.inj hread
  have hzero : rest.length = 0 :=
    hclean _ (((readLoop_log hloop).2 hpos).subset (by rw [← h.unread]; simp))
  obtain rfl := List.length_eq_zero_iff.1 hzero
  have hint := BitVec.toInt_lt (x := len)
  obtain ⟨k, hk⟩ := Int.eq_ofNat_of_zero_le (show 0 ≤ len.toInt by omega)
  simp only [hk] at hloop hint ⊢
  obtain ⟨got, rest, hbuf, hahead, hend⟩ :=
    (readLoop_spec h (by omega)).2 _ _ _ hloop
  rw [List.nil_append] at hbuf
  rw [hbuf]
  exact ⟨trivial, rest, hahead, hend⟩

/-- A `vbuf_read` of nothing. -/
theorem exec_read_nonpos {len : BitVec 32} (h : len.toInt ≤ 0) (turns : ℕ) :
    (ReadCall.read len).exec src turns r = .ok r := by
  have hloop : r.b.vbufReadLoop src.getReady turns [] len.toInt = .ok (len.toInt, [], r.b) := by
    unfold VbufEnv.vbufReadLoop
    rw [if_neg (by omega)]
    rfl
  refine bind_ok_iff.2 ⟨_, bind_ok_iff.2 ⟨_, hloop, rfl⟩, ?_⟩
  exact congrArg (fun d => Except.ok (Reading.mk r.b d)) (List.append_nil _)

theorem aligned_of_clean {calls : List ReadCall} : ∀ {r : Reading} {rest : Bytes},
    Ahead src r rest → calls.foldlM (ReadCall.exec src turns) r = .ok r' →
      (∀ n ∈ r'.b.env, n = 0) → Aligned src (r.b.env.length, rest.length) calls := by
  induction calls with
  | nil => exact fun _ _ _ => trivial
  | cons call calls ih =>
    intro r rest h hrun hclean
    obtain ⟨r₁, hcall, hrest⟩ := bind_ok_iff.1 hrun
    have hclean₁ : ∀ n ∈ r₁.b.env, n = 0 := fun n hn => hclean n ((foldlM_log hrest).subset hn)
    cases call with
    | get =>
      obtain ⟨rfl, hsrc, h₁, hlen⟩ := h.get hcall hclean₁
      have hrec := ih h₁ hrest hclean
      rw [hlen] at hrec
      exact ⟨rfl, hsrc, hrec⟩
    | read len =>
      unfold Aligned
      by_cases hle : len.toInt ≤ 0
      · obtain rfl := Except.ok.inj ((exec_read_nonpos hle turns).symm.trans hcall)
        rw [if_pos hle]
        exact ih h hrest hclean
      · rw [if_neg hle]
        obtain ⟨rfl, rest', h₁, hend⟩ := h.read (by omega) hcall hclean₁
        have hrec := ih h₁ hrest hclean
        rw [hend] at hrec
        exact ⟨rfl, hrec⟩

theorem clean_of_aligned (hturns : 2 ^ 31 ≤ turns) {calls : List ReadCall} :
    ∀ {r : Reading} {rest : Bytes}, Ahead src r rest →
      Aligned src (r.b.env.length, rest.length) calls →
      ∃ r' rest', calls.foldlM (ReadCall.exec src turns) r = .ok r' ∧ Ahead src r' rest' := by
  induction calls with
  | nil => exact fun {r rest} h _ => ⟨r, rest, rfl, h⟩
  | cons call calls ih =>
    intro r rest h hal
    obtain ⟨b, delivered⟩ := r
    cases call with
    | get =>
      obtain ⟨hzero, hsrc, hal⟩ := hal
      obtain rfl := List.length_eq_zero_iff.1 hzero
      obtain ⟨turns, rfl⟩ := Nat.exists_eq_add_of_le' (show 1 ≤ turns by omega)
      have hget : ReadCall.get.exec src (turns + 1) ⟨b, delivered⟩ =
          .ok ⟨⟨b.bp, b.env ++ [VbufEnv.unread b.bp]⟩, delivered⟩ := by
        refine bind_ok_iff.2 ⟨(none, ⟨b.bp, b.env ++ [VbufEnv.unread b.bp]⟩), ?_, ?_⟩
        · rw [vbufGet_succ]
          simp only
          rw [Chunks.getReady_none hsrc]
          rfl
        · exact congrArg (fun d => Except.ok (Reading.mk _ d)) (List.append_nil _)
      have hrec := ih (h.atEnd hsrc) (by simpa using hal)
      obtain ⟨r', rest', hrun, h'⟩ := hrec
      exact ⟨r', rest', bind_ok_iff.2 ⟨_, hget, hrun⟩, h'⟩
    | read len =>
      unfold Aligned at hal
      by_cases hle : len.toInt ≤ 0
      · rw [if_pos hle] at hal
        obtain ⟨r', rest', hrun, h'⟩ := ih h hal
        exact ⟨r', rest', bind_ok_iff.2 ⟨_, exec_read_nonpos hle turns, hrun⟩, h'⟩
      · rw [if_neg hle] at hal
        obtain ⟨hzero, hal⟩ := hal
        obtain rfl := List.length_eq_zero_iff.1 hzero
        have hint := BitVec.toInt_lt (x := len)
        obtain ⟨k, hk⟩ := Int.eq_ofNat_of_zero_le (show 0 ≤ len.toInt by omega)
        have hspec := @readLoop_spec _ turns _ _ [] k h (by omega)
        obtain ⟨⟨count', buf', b'⟩, hloop⟩ := hspec.1 (by omega)
        obtain ⟨got, rest, hbuf, hahead, hend⟩ := hspec.2 _ _ _ hloop
        rw [List.nil_append] at hbuf
        obtain rfl := hbuf
        have hread : (ReadCall.read len).exec src turns ⟨b, delivered⟩ =
            .ok ⟨b', delivered ++ buf'⟩ := by
          refine bind_ok_iff.2 ⟨(len.toInt - count', buf', b'), ?_, rfl⟩
          rw [VbufEnv.vbufRead, hk]
          exact bind_ok_iff.2 ⟨_, hloop, rfl⟩
        rw [hk, Int.toNat_natCast, ← hend] at hal
        obtain ⟨r', rest', hrun, h'⟩ := ih hahead hal
        exact ⟨r', rest', bind_ok_iff.2 ⟨_, hread, hrun⟩, h'⟩

end Reading

theorem Delivers.aligned {src : Chunks} {calls : List ReadCall} (h : Delivers src calls) :
    Aligned src (0, 0) calls := by
  obtain ⟨turns, r, hrun, -, hclean⟩ := h
  exact Reading.aligned_of_clean (Reading.ahead_start src) hrun hclean

/-- Any calls on a buffer that is filled with any chunks deliver the stream exactly once if and only
if no byte is asked for while one is unread, and `VBUF_GET` is only called at an end of data. -/
theorem delivers_iff (src : Chunks) (calls : List ReadCall) :
    Delivers src calls ↔ Aligned src (0, 0) calls := by
  refine ⟨Delivers.aligned, fun hal => ?_⟩
  obtain ⟨r, rest, hrun, h⟩ :=
    Reading.clean_of_aligned le_rfl (Reading.ahead_start src) hal
  exact ⟨2 ^ 31, r, hrun, ⟨rest, h.sync⟩, h.clean⟩

/-- Two bytes, and the end of the data. -/
def twoBytes : Chunks
  | 0 => some ⟨[], [97, 98], [], by decide, by decide⟩
  | _ => none

/-- Of the two bytes, `VBUF_GET` delivers none : it fills the buffer again. Two reads of one byte
deliver the first, as the second read fills the buffer again. -/
theorem not_delivers :
    (∃ r, [ReadCall.get].foldlM (ReadCall.exec twoBytes 2) .start = .ok r ∧
      r.delivered = [] ∧ r.b.env = [0, 2] ∧ ¬Delivers twoBytes [.get]) ∧
    ∃ r, [ReadCall.read 1, .read 1].foldlM (ReadCall.exec twoBytes 2) .start = .ok r ∧
      r.delivered = [97] ∧ r.b.env = [0, 1] ∧ ¬Delivers twoBytes [.read 1, .read 1] := by
  refine ⟨⟨_, rfl, rfl, by decide +kernel, fun h => ?_⟩,
    ⟨_, rfl, rfl, by decide +kernel, fun h => ?_⟩⟩
  · cases h.aligned.2.1
  · have hal := h.aligned
    simp [Aligned, Chunks.readEnd, twoBytes] at hal

end Nowra
