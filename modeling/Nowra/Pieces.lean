import Nowra.Format

/-!
# What a format prints

The parts of a format take their arguments from left to right, and become bytes that are copied and
calls of `sprintf`, each with the space that is requested for it (`pieces`).

`vbuf_print` goes through the parts of the format and no further. If it returns, the arguments are
taken as `pieces` says, and a buffer that grows has got what the pieces print, one behind the other
(`vbufPrint_items`). The buffer of a string grows (`vstring_printReady`).
-/

namespace Nowra

/-! ## Buffers to print to -/

/-- The bytes that were written to a buffer. -/
def VbufEnv.written {σ : Type} (b : VbufEnv σ) : Bytes := b.bp.data.take b.bp.ptr

/-- What `vbuf_print` relies on, for the buffers in `I` : the block ends where the count says, the
callback of a full buffer makes room, and both callbacks keep what was written. A callback that ends
the process, with an error that is `lost`, does not return. The callbacks may fail if `mayFail`. -/
structure PrintReady {σ : Type} (lost : Fault → Prop) (mayFail : Prop) (put : VbufFn σ)
    (space : SpaceFn σ) (I : VbufEnv σ → Prop) : Prop where
  room : ∀ b, I b → b.bp.ptr + b.bp.cnt = b.bp.data.length
  store : ∀ b, I b → ∀ bytes : Bytes, bytes.length ≤ b.bp.cnt → I ⟨b.bp.stored bytes, b.env⟩
  behind : ∀ b, I b → ∀ bytes : Bytes, bytes.length ≤ b.bp.cnt →
    I ⟨{ b.bp with data := (b.bp.stored bytes).data }, b.env⟩
  put : ∀ b, I b → b.bp.cnt = 0 → Yields lost (put b) fun r =>
    I r.2 ∧ r.2.written = b.written ∧ if r.1 then mayFail else 0 < r.2.bp.cnt
  space : ∀ b, I b → ∀ n, Yields lost (space b n) fun r =>
    I r.2 ∧ r.2.written = b.written ∧ (r.1 → mayFail)

/-- A request for space that does not fail makes as much room as was requested. -/
def Guarantees {σ : Type} (space : SpaceFn σ) (I : VbufEnv σ → Prop) : Prop :=
  ∀ b, I b → ∀ n b', space b n = .ok (false, b') → n ≤ b'.bp.cnt

section

variable {σ : Type} {lost : Fault → Prop} {mayFail : Prop} {put : VbufFn σ} {space : SpaceFn σ}
  {I : VbufEnv σ → Prop} {b : VbufEnv σ}

/-- Store bytes one by one. A byte that is not stored is lost. -/
def vbufPuts (put : VbufFn σ) (b : VbufEnv σ) : Bytes → Except Fault (VbufEnv σ)
  | [] => pure b
  | c :: s => do
    let (_, b) ← b.vbufPut put 32 c
    vbufPuts put b s

theorem VbufEnv.written_stored {bytes : Bytes} (h : b.bp.ptr ≤ b.bp.data.length) :
    VbufEnv.written ⟨b.bp.stored bytes, b.env⟩ = b.written ++ bytes :=
  Vbuf.stored_take h

namespace PrintReady

theorem put_yields (h : PrintReady lost mayFail put space I) (hb : I b) (c : BitVec 8) :
    Yields lost (b.vbufPut put 32 c) fun r =>
      I r.2 ∧ (¬mayFail → r.2.written = b.written ++ [c]) := by
  have hput (turns : ℕ) {b : VbufEnv σ} (hb : I b) (hcnt : 0 < b.bp.cnt) :
      Yields lost (b.vbufPut put turns c) fun r => I r.2 ∧ r.2.written = b.written ++ [c] := by
    have hroom := h.room b hb
    have hst : storeAt b.bp.data b.bp.ptr [c] = .ok (b.bp.stored [c]).data :=
      Vbuf.storeAt_eq (by rw [List.length_singleton]; omega)
    refine .of_eq (a := (some c, ⟨b.bp.stored [c], b.env⟩)) ?_ ?_
    · unfold VbufEnv.vbufPut
      rw [if_pos hcnt]
      exact bind_ok_iff.2 ⟨_, hst, rfl⟩
    · exact ⟨h.store b hb [c] hcnt, VbufEnv.written_stored (by omega)⟩
  rcases Nat.eq_zero_or_pos b.bp.cnt with hcnt | hcnt
  · unfold VbufEnv.vbufPut
    rw [if_neg (by omega)]
    refine (h.put b hb hcnt).bind ?_
    rintro ⟨failed, b'⟩ ⟨hb', hkept, hfail⟩
    cases failed with
    | true => exact .of_eq rfl ⟨hb', fun hno => absurd hfail hno⟩
    | false =>
      rw [← hkept]
      exact (hput 31 hb' hfail).mono fun r hr => ⟨hr.1, fun _ => hr.2⟩
  · exact (hput 32 hb hcnt).mono fun r hr => ⟨hr.1, fun _ => hr.2⟩

theorem puts_yields (h : PrintReady lost mayFail put space I) (hb : I b) (s : Bytes) :
    Yields lost (vbufPuts put b s) fun b' => I b' ∧ (¬mayFail → b'.written = b.written ++ s) := by
  induction s generalizing b with
  | nil => exact .of_eq rfl ⟨hb, fun _ => (List.append_nil _).symm⟩
  | cons c s ih =>
    refine (h.put_yields hb c).bind fun r ⟨hr, hput⟩ => (ih hr).mono fun b' ⟨hb', hputs⟩ => ?_
    refine ⟨hb', fun hno => ?_⟩
    rw [hputs hno, hput hno, ← List.append_cons]

/-- What `sprintf` prints is written up to its null byte, if there is room for it. -/
theorem sprintfSkip_yields (h : PrintReady lost mayFail put space I) (hb : I b) {libc : Libc}
    {fmt out : Bytes} {arg : VaArg} (hout : libc.sprintf fmt arg = some out)
    (hfit : out.length < b.bp.cnt) : Yields lost (sprintfSkip libc b fmt arg) fun b' =>
      I b' ∧ b'.written = b.written ++ out.takeWhile (· ≠ 0) := by
  have hroom := h.room b hb
  have hlen : (out ++ [0]).length ≤ b.bp.cnt := by
    rw [List.length_append, List.length_singleton]
    omega
  have hle : (out.takeWhile (· ≠ 0)).length ≤ out.length := (List.takeWhile_sublist _).length_le
  have hst : storeAt b.bp.data b.bp.ptr (out ++ [0]) = .ok (b.bp.stored (out ++ [0])).data :=
    Vbuf.storeAt_eq (by omega)
  have hdata : (b.bp.stored (out ++ [0])).data.length = b.bp.data.length :=
    Vbuf.stored_data_length (by omega)
  have hbehind := h.behind b hb _ hlen
  have hskip := @Vbuf.vbufSkip_stored _ out hroom hfit
  generalize hdata' : (b.bp.stored (out ++ [0])).data = data at *
  have htake : data.take b.bp.ptr = b.bp.data.take b.bp.ptr := by
    rw [← hdata', Vbuf.stored, List.append_assoc]
    exact List.take_left' (by rw [List.length_take]; omega)
  refine .of_eq (a := ⟨vbufSkip { b.bp with data := data }, b.env⟩) ?_ ?_
  · unfold sprintfSkip
    rw [hout]
    exact bind_ok_iff.2 ⟨_, hst, rfl⟩
  · rw [hskip]
    refine ⟨h.store _ hbehind _ (by simp only; omega), ?_⟩
    have hw := @VbufEnv.written_stored _ ⟨{ b.bp with data := data }, b.env⟩
      (out.takeWhile (· ≠ 0)) (by simp only; omega)
    rw [hw]
    exact congrArg (· ++ _) htake

/-- Without the room, `sprintf` goes outside the block. -/
theorem sprintfSkip_error (h : PrintReady lost mayFail put space I) (hb : I b) {libc : Libc}
    {fmt : Bytes} {arg : VaArg} (hno : ∀ out, libc.sprintf fmt arg = some out →
      b.bp.cnt ≤ out.length) : sprintfSkip libc b fmt arg = .error .outside := by
  have hroom := h.room b hb
  unfold sprintfSkip
  cases hout : libc.sprintf fmt arg with
  | none => rfl
  | some out =>
    have := hno out hout
    have hst : storeAt b.bp.data b.bp.ptr (out ++ [0]) = .error .outside := by
      rw [storeAt, if_neg (by rw [List.length_append, List.length_singleton]; omega)]
      rfl
    exact bind_error_iff.2 (.inl hst)

end PrintReady

end

/-- The buffer of a string grows, or the process panics. -/
theorem vstring_printReady :
    PrintReady IsPanic False vstringBufPutReady vstringBufSpaceFn fun b => b.bp.Sound where
  room b hb := by
    obtain ⟨s, hs⟩ := hb
    exact hs.room.trans hs.block.symm
  store := vstring_putReady.store
  behind b hb bytes hlen := by
    obtain ⟨s, hs⟩ := hb
    have := hs.room
    have := hs.block
    exact ⟨s, hs.keep (Vbuf.storeAt_eq (by omega))⟩
  put b hb hcnt := by
    obtain ⟨s, hs⟩ := hb
    have hroom := hs.room
    have hpos := hs.pos
    have hext := (hs.extend_yields (show 0 < 2 ^ 31 by decide) (.inr le_rfl)).weaken
      fun _ he => he.1
    refine hext.bind fun bp ⟨hs', hlen⟩ => ?_
    have hroom' := hs'.room
    have hused := hs'.used.trans hs.used.symm
    refine .of_eq rfl ⟨⟨s, hs'⟩, hs'.contents.trans hs.contents.symm, ?_⟩
    simp only [Bool.false_eq_true, if_false]
    omega
  space b hb n := by
    obtain ⟨s, hs⟩ := hb
    have hspace : Yields IsPanic (vstringBufSpace b.bp n) fun bp => bp.Holds s := by
      obtain ⟨incr, hincr⟩ := Int.eq_ofNat_of_zero_le
        (Int.emod_nonneg ((n : ℤ) - b.bp.cnt) (show (2 : ℤ) ^ 32 ≠ 0 by decide))
      rcases hs.space_or n hincr with ⟨-, hok⟩ | ⟨-, -, -, bp, hok, hs', -⟩ | ⟨-, -, -, p, hp⟩
      · exact .of_eq hok hs
      · exact .of_eq hok hs'
      · exact .of_error hp ⟨p, rfl⟩
    refine hspace.bind fun bp hs' => .of_eq rfl ⟨⟨s, hs'⟩, ?_, Bool.false_ne_true⟩
    exact hs'.contents.trans hs.contents.symm

/-! ## Pieces -/

/-- What is printed for a part of a format. -/
inductive Piece
  /-- Bytes that are copied. -/
  | copy (s : Bytes)
  /-- A call of `sprintf`, with the space that is requested for it. -/
  | call (text : Bytes) (reserved : ℕ) (arg : VaArg)
  deriving DecidableEq

/-- What is printed for a directive with this text, and the arguments that are left. -/
def Conversion.piece (libc : Libc) (text : Bytes) (c : Conversion) (ap : List VaArg) :
    Except Fault (Piece × List VaArg) :=
  if c.type = byte 's' then do
    let (s, ap) ← vaStr ap
    if ← strSlow c s then pure (.call text (c.reserved intSpace) (.str s), ap)
    else if 0 ∈ s then pure (.copy (s.takeWhile (· ≠ 0)), ap)
    else throw .outside
  else if c.type ∈ cstr "cduoxX" then
    if c.longFlag then do
      let (n, ap) ← vaLong ap
      pure (.call text (c.reserved intSpace) (.long n), ap)
    else do
      let (n, ap) ← vaInt ap
      pure (.call text (c.reserved intSpace) (.int n), ap)
  else if c.type ∈ cstr "efg" then do
    let (x, ap) ← vaDouble ap
    pure (.call text (c.reserved dblSpace) (.double x), ap)
  else if c.type = byte 'm' then pure (.copy (libc.strerror.takeWhile (· ≠ 0)), ap)
  else if c.type = byte 'p' then do
    let (p, ap) ← vaPtr ap
    pure (.call text (c.reserved ptrSpace) (.ptr p), ap)
  else throw (.panic (.unknownFormatType c.type))

/-- What is printed for a part of a format, and the arguments that are left. A directive takes those
of its stars before its own. -/
def Item.piece (libc : Libc) (ap : List VaArg) : Item → Except Fault (Piece × List VaArg)
  | .char c _ => pure (.copy [c], ap)
  | .percent => pure (.copy [byte '%'], ap)
  | .directive d type => do
    let (text, width, prec, ap) ← d.assemble ap
    Conversion.piece libc (text ++ [type]) ⟨type, width, prec, d.long⟩ ap
  | .tail d => do
    let (_, _, _, ap) ← d.assemble ap
    pure (.copy [], ap)

/-- The pieces of a format. -/
def pieces (libc : Libc) : List Item → List VaArg → Except Fault (List Piece × List VaArg)
  | [], ap => pure ([], ap)
  | item :: items, ap => do
    let (p, ap) ← item.piece libc ap
    let (ps, ap) ← pieces libc items ap
    pure (p :: ps, ap)

/-- The bytes that are printed. -/
def Piece.out (libc : Libc) : Piece → Option Bytes
  | .copy s => some s
  | .call text _ arg => (libc.sprintf text arg).map (·.takeWhile (· ≠ 0))

/-- The call writes no more than the space that is requested for it, with its null byte. -/
def Piece.Fits (libc : Libc) : Piece → Prop
  | .copy _ => True
  | .call text reserved arg => ∃ out, libc.sprintf text arg = some out ∧ out.length < reserved

section

variable {σ : Type} (libc : Libc) (put : VbufFn σ) (space : SpaceFn σ)

/-- Print a piece. Returns whether there was no space. -/
def Piece.exec (b : VbufEnv σ) : Piece → Except Fault (Bool × VbufEnv σ)
  | .copy s => do pure (false, ← vbufPuts put b s)
  | .call text reserved arg => do
    let (failed, b) ← space b reserved
    if failed then pure (true, b) else pure (false, ← sprintfSkip libc b text arg)

end

section

variable {σ : Type} {lost : Fault → Prop} {mayFail : Prop} {libc : Libc} {put : VbufFn σ}
  {space : SpaceFn σ} {I : VbufEnv σ → Prop} {b : VbufEnv σ} {ap : List VaArg}

/-- A string is copied up to its null byte. -/
theorem vbufStrcat_eq {s : Bytes} (h0 : 0 ∈ s) :
    vbufStrcat put b s = vbufPuts put b (s.takeWhile (· ≠ 0)) := by
  induction s generalizing b with
  | nil => exact absurd h0 List.not_mem_nil
  | cons c s ih =>
    rw [vbufStrcat]
    by_cases hc : c = 0
    · rw [if_pos hc, List.takeWhile_cons_of_neg (by simp [hc])]
      rfl
    · rw [if_neg hc, takeWhile_null_cons hc, vbufPuts]
      simp only [ih ((List.mem_cons.1 h0).resolve_left (Ne.symm hc))]

theorem mem_of_vbufStrcat {s : Bytes} {b' : VbufEnv σ} (h : vbufStrcat put b s = .ok b') :
    0 ∈ s := by
  induction s generalizing b with
  | nil => cases h
  | cons c s ih =>
    rw [vbufStrcat] at h
    split at h
    · rename_i hc
      exact hc ▸ List.mem_cons_self
    · obtain ⟨r, -, h⟩ := bind_ok_iff.1 h
      exact List.mem_cons_of_mem _ (ih h)

/-- Space is requested for a call, and then the argument is taken and printed. -/
theorem call_exec {α : Type} {va : List VaArg → Except Fault (α × List VaArg)} {arg : α → VaArg}
    {text : Bytes} {n : ℕ} {p : Piece} {rest : List VaArg}
    (hp : (va ap >>= fun r => pure (Piece.call text n (arg r.1), r.2)) = .ok (p, rest)) :
    (space b n >>= fun r => if r.1 then pure (true, r.2, ap) else
      va ap >>= fun q => sprintfSkip libc r.2 text (arg q.1) >>= fun b => pure (false, b, q.2)) =
    p.exec libc put space b >>= fun r => pure (r.1, r.2, if r.1 then ap else rest) := by
  obtain ⟨q, hq, hp⟩ := bind_ok_iff.1 hp
  obtain ⟨rfl, rfl⟩ := Prod.mk.inj (Except.ok.inj hp)
  have hq' : va ap = pure q := hq
  rw [Piece.exec, bind_assoc]
  refine bind_congr fun r => ?_
  obtain ⟨failed, b⟩ := r
  cases failed with
  | true => rfl
  | false => simp only [Bool.false_eq_true, if_false, hq', bind_assoc, pure_bind]

/-- A string is printed after space for it was requested, or copied. -/
theorem str_exec {text : Bytes} {c : Conversion} {p : Piece} {rest : List VaArg}
    (htype : c.type = byte 's') (hp : c.piece libc text ap = .ok (p, rest)) :
    ∃ ap', printConversion libc put space text c b ap =
      p.exec libc put space b >>= fun r => pure (r.1, r.2, if r.1 then ap' else rest) := by
  rw [Conversion.piece, if_pos htype] at hp
  rw [printConversion, if_pos htype]
  obtain ⟨⟨s, ap'⟩, hs, hp⟩ := bind_ok_iff.1 hp
  obtain ⟨slow, hslow, hp⟩ := bind_ok_iff.1 hp
  have hs' : vaStr ap = pure (s, ap') := hs
  have hslow' : strSlow c s = pure slow := hslow
  rw [hs', pure_bind]
  simp only [hslow', pure_bind]
  cases slow with
  | true =>
    exact ⟨ap', @call_exec _ libc put space b ap' Unit (fun ap => pure ((), ap))
      (fun _ => .str s) _ _ _ _ hp⟩
  | false =>
    simp only [Bool.false_eq_true, if_false] at hp ⊢
    split at hp
    · rename_i h0
      obtain ⟨rfl, rfl⟩ := Prod.mk.inj (Except.ok.inj hp)
      refine ⟨ap', ?_⟩
      rw [vbufStrcat_eq h0, Piece.exec, bind_assoc]
      rfl
    · cases hp

/-- A conversion prints its piece. -/
theorem printConversion_piece {text : Bytes} {c : Conversion} {p : Piece} {rest : List VaArg}
    (hp : c.piece libc text ap = .ok (p, rest)) :
    ∃ ap', printConversion libc put space text c b ap =
      p.exec libc put space b >>= fun r => pure (r.1, r.2, if r.1 then ap' else rest) := by
  by_cases hs : c.type = byte 's'
  · exact str_exec hs hp
  rw [Conversion.piece, if_neg hs] at hp
  rw [printConversion, if_neg hs]
  refine ⟨ap, ?_⟩
  split at hp
  · rename_i hint
    rw [if_pos hint]
    split at hp
    · rename_i hlong
      simp only [if_pos hlong]
      exact call_exec hp
    · rename_i hlong
      simp only [if_neg hlong]
      exact call_exec hp
  rename_i hint
  rw [if_neg hint]
  split at hp
  · rename_i hfloat
    rw [if_pos hfloat]
    exact call_exec hp
  rename_i hfloat
  rw [if_neg hfloat]
  split at hp
  · rename_i hm
    obtain ⟨rfl, rfl⟩ := Prod.mk.inj (Except.ok.inj hp)
    have h0 : 0 ∈ libc.strerror ++ [0] := List.mem_append_right _ (List.mem_singleton.2 rfl)
    rw [if_pos hm, vbufStrcat_eq h0, takeWhile_null_append, Piece.exec, bind_assoc]
    rfl
  rename_i hm
  rw [if_neg hm]
  split at hp
  · rename_i hptr
    rw [if_pos hptr]
    exact call_exec hp
  · cases hp

/-- An argument is taken after space for it was requested. -/
theorem call_piece {α : Type} {va : List VaArg → Except Fault (α × List VaArg)} {arg : α → VaArg}
    {text : Bytes} {n : ℕ} {r : Bool × VbufEnv σ × List VaArg}
    (h : (space b n >>= fun r => if r.1 then pure (true, r.2, ap) else
      va ap >>= fun q => sprintfSkip libc r.2 text (arg q.1) >>= fun b => pure (false, b, q.2)) =
        .ok r) :
    (∃ n b', space b n = .ok (true, b')) ∨
      ∃ p rest, (va ap >>= fun r => pure (Piece.call text n (arg r.1), r.2)) = .ok (p, rest) := by
  obtain ⟨⟨failed, b'⟩, hok, h⟩ := bind_ok_iff.1 h
  cases failed with
  | true => exact .inl ⟨n, b', hok⟩
  | false =>
    obtain ⟨q, hq, -⟩ := bind_ok_iff.1 h
    exact .inr ⟨_, _, bind_ok_iff.2 ⟨q, hq, rfl⟩⟩

/-- A conversion that returns has its arguments, unless there was no space. -/
theorem piece_of_printConversion {text : Bytes} {c : Conversion} {r : Bool × VbufEnv σ × List VaArg}
    (h : printConversion libc put space text c b ap = .ok r) :
    (∃ n b', space b n = .ok (true, b')) ∨ ∃ p rest, c.piece libc text ap = .ok (p, rest) := by
  rw [printConversion] at h
  rw [Conversion.piece]
  split at h
  · rename_i hs
    rw [if_pos hs]
    obtain ⟨⟨s, ap'⟩, hs, h⟩ := bind_ok_iff.1 h
    obtain ⟨slow, hslow, h⟩ := bind_ok_iff.1 h
    cases slow with
    | true => exact .inr ⟨_, _, bind_ok_iff.2 ⟨_, hs, bind_ok_iff.2 ⟨_, hslow, rfl⟩⟩⟩
    | false =>
      obtain ⟨b', hcopy, -⟩ := bind_ok_iff.1 h
      refine .inr ⟨.copy (s.takeWhile (· ≠ 0)), ap', ?_⟩
      exact bind_ok_iff.2 ⟨_, hs, bind_ok_iff.2 ⟨_, hslow, if_pos (mem_of_vbufStrcat hcopy)⟩⟩
  rename_i hs
  rw [if_neg hs]
  split at h
  · rename_i hint
    rw [if_pos hint]
    by_cases hlong : c.longFlag = true
    · simp only [if_pos hlong] at h ⊢
      exact call_piece h
    · simp only [if_neg hlong] at h ⊢
      exact call_piece h
  rename_i hint
  rw [if_neg hint]
  split at h
  · rename_i hfloat
    rw [if_pos hfloat]
    exact call_piece h
  rename_i hfloat
  rw [if_neg hfloat]
  split at h
  · rename_i hm
    exact .inr ⟨_, _, if_pos hm⟩
  rename_i hm
  rw [if_neg hm]
  split at h
  · rename_i hptr
    rw [if_pos hptr]
    exact call_piece h
  · cases h

/-- A part of a format prints its piece. -/
theorem Item.exec_piece {item : Item} {p : Piece} {rest : List VaArg}
    (hp : item.piece libc ap = .ok (p, rest)) : ∃ ap', item.exec libc put space b ap =
      p.exec libc put space b >>= fun r => pure (r.1, r.2, if r.1 then ap' else rest) := by
  cases item with
  | char c hc =>
    obtain ⟨rfl, rfl⟩ := Prod.mk.inj (Except.ok.inj hp)
    refine ⟨ap, ?_⟩
    rw [Item.exec, Piece.exec, bind_assoc, vbufPuts, bind_assoc]
    rfl
  | percent =>
    obtain ⟨rfl, rfl⟩ := Prod.mk.inj (Except.ok.inj hp)
    refine ⟨ap, ?_⟩
    rw [Item.exec, Piece.exec, bind_assoc, vbufPuts, bind_assoc]
    rfl
  | directive d type =>
    obtain ⟨⟨text, width, prec, ap'⟩, hd, hp⟩ := bind_ok_iff.1 hp
    have hd' : d.assemble ap = pure (text, width, prec, ap') := hd
    rw [Item.exec, hd', pure_bind]
    exact printConversion_piece hp
  | tail d =>
    obtain ⟨⟨text, width, prec, ap'⟩, hd, hp⟩ := bind_ok_iff.1 hp
    obtain ⟨rfl, rfl⟩ := Prod.mk.inj (Except.ok.inj hp)
    have hd' : d.assemble ap = pure (text, width, prec, ap') := hd
    refine ⟨ap', ?_⟩
    rw [Item.exec, hd', pure_bind]
    rfl

/-- A part of a format that is printed has its arguments, unless there was no space. -/
theorem Item.piece_of_exec {item : Item} {r : Bool × VbufEnv σ × List VaArg}
    (h : item.exec libc put space b ap = .ok r) :
    (∃ n b', space b n = .ok (true, b')) ∨ ∃ p rest, item.piece libc ap = .ok (p, rest) := by
  cases item with
  | char c hc => exact .inr ⟨_, _, rfl⟩
  | percent => exact .inr ⟨_, _, rfl⟩
  | directive d type =>
    obtain ⟨⟨text, width, prec, ap'⟩, hd, h⟩ := bind_ok_iff.1 h
    refine (piece_of_printConversion h).imp_right ?_
    rintro ⟨p, rest, hp⟩
    exact ⟨p, rest, bind_ok_iff.2 ⟨_, hd, hp⟩⟩
  | tail d =>
    obtain ⟨⟨text, width, prec, ap'⟩, hd, -⟩ := bind_ok_iff.1 h
    exact .inr ⟨_, _, bind_ok_iff.2 ⟨_, hd, rfl⟩⟩

/-- A piece that was printed is behind what was written before. -/
theorem Piece.exec_ok (h : PrintReady lost False put space I) (hb : I b) {p : Piece}
    {r : Bool × VbufEnv σ} (hr : p.exec libc put space b = .ok r) :
    r.1 = false ∧ I r.2 ∧ ∃ out, p.out libc = some out ∧ r.2.written = b.written ++ out := by
  cases p with
  | copy s =>
    obtain ⟨b', hputs, hr⟩ := bind_ok_iff.1 hr
    obtain rfl := Except.ok.inj hr
    obtain ⟨hb', hw⟩ := (h.puts_yields hb s).ok b' hputs
    exact ⟨rfl, hb', s, rfl, hw not_false⟩
  | call text reserved arg =>
    obtain ⟨⟨failed, b'⟩, hspace, hr⟩ := bind_ok_iff.1 hr
    obtain ⟨hb', hkept, hfail⟩ := (h.space b hb reserved).ok _ hspace
    cases failed with
    | true => exact (hfail rfl).elim
    | false =>
      obtain ⟨b'', hskip, hr⟩ := bind_ok_iff.1 hr
      obtain rfl := Except.ok.inj hr
      obtain ⟨out, hout, hfit⟩ : ∃ out, libc.sprintf text arg = some out ∧
          out.length < b'.bp.cnt := by
        by_contra hno
        push Not at hno
        cases (h.sprintfSkip_error hb' hno).symm.trans hskip
      obtain ⟨hb'', hw⟩ := (h.sprintfSkip_yields hb' hout hfit).ok b'' hskip
      refine ⟨rfl, hb'', out.takeWhile (· ≠ 0), ?_, hw.trans (congrArg (· ++ _) hkept)⟩
      rw [Piece.out, hout]
      rfl

/-- A piece that fits is printed. -/
theorem Piece.exec_yields (h : PrintReady lost mayFail put space I) (hspace : Guarantees space I)
    (hb : I b) {p : Piece} (hfits : p.Fits libc) :
    Yields lost (p.exec libc put space b) fun r => I r.2 ∧ (r.1 → mayFail) := by
  cases p with
  | copy s =>
    exact (h.puts_yields hb s).bind fun b' hb' => .of_eq rfl ⟨hb'.1, fun hf => by cases hf⟩
  | call text reserved arg =>
    obtain ⟨out, hout, hlen⟩ := hfits
    refine (h.space b hb reserved).and_eq.bind ?_
    rintro ⟨failed, b'⟩ ⟨hok, hb', -, hfail⟩
    cases failed with
    | true => exact .of_eq rfl ⟨hb', hfail⟩
    | false =>
      have hroom := hspace b hb reserved b' hok
      exact (h.sprintfSkip_yields hb' hout (hlen.trans_le hroom)).bind fun b'' hb'' =>
        .of_eq rfl ⟨hb''.1, fun hf => by cases hf⟩

/-- What was printed is what the pieces print, one behind the other. -/
theorem execItems_ok (h : PrintReady lost False put space I) {is : List Item} (hb : I b)
    {r : VbufEnv σ × List VaArg} (hr : execItems libc put space is b ap = .ok r) :
    ∃ (ps : List Piece) (outs : List Bytes), pieces libc is ap = .ok (ps, r.2) ∧
      ps.map (Piece.out libc) = outs.map some ∧ r.1.written = b.written ++ outs.flatten := by
  induction is generalizing b ap with
  | nil =>
    obtain rfl := Except.ok.inj hr
    exact ⟨[], [], rfl, rfl, (List.append_nil _).symm⟩
  | cons item is ih =>
    obtain ⟨⟨failed, b₁, ap₁⟩, hitem, hr⟩ := bind_ok_iff.1 hr
    obtain ⟨p, rest, hp⟩ : ∃ p rest, item.piece libc ap = .ok (p, rest) := by
      refine (item.piece_of_exec hitem).resolve_left ?_
      rintro ⟨n, b', hno⟩
      exact ((h.space b hb n).ok _ hno).2.2 rfl
    obtain ⟨ap', hexec⟩ := @Item.exec_piece _ _ put space b _ _ _ _ hp
    rw [hexec] at hitem
    obtain ⟨⟨failed', b'⟩, hpiece, hitem⟩ := bind_ok_iff.1 hitem
    obtain ⟨rfl, hb', out, hout, hw⟩ := Piece.exec_ok h hb hpiece
    obtain ⟨rfl, rfl, rfl⟩ : false = failed ∧ b' = b₁ ∧ rest = ap₁ := by
      simpa using Except.ok.inj hitem
    obtain ⟨ps, outs, hps, houts, hw'⟩ := ih hb' hr
    refine ⟨p :: ps, out :: outs, bind_ok_iff.2 ⟨_, hp, bind_ok_iff.2 ⟨_, hps, rfl⟩⟩, ?_, ?_⟩
    · rw [List.map_cons, List.map_cons, hout, houts]
    · rw [hw', hw, List.flatten_cons, List.append_assoc]

/-- Pieces that fit are printed. -/
theorem execItems_yields (h : PrintReady lost mayFail put space I) (hspace : Guarantees space I)
    {is : List Item} {ps : List Piece} {rest : List VaArg} (hb : I b)
    (hps : pieces libc is ap = .ok (ps, rest)) (hfits : ∀ p ∈ ps, p.Fits libc) :
    Yields lost (execItems libc put space is b ap) fun r => I r.1 := by
  induction is generalizing b ap ps with
  | nil => exact .of_eq rfl hb
  | cons item is ih =>
    obtain ⟨⟨p, ap₁⟩, hp, hps⟩ := bind_ok_iff.1 hps
    obtain ⟨⟨qs, ap₂⟩, hqs, hps⟩ := bind_ok_iff.1 hps
    obtain ⟨rfl, rfl⟩ := Prod.mk.inj (Except.ok.inj hps)
    obtain ⟨ap', hexec⟩ := @Item.exec_piece _ _ put space b _ _ _ _ hp
    rw [execItems, hexec, bind_assoc]
    refine (Piece.exec_yields h hspace hb (hfits p List.mem_cons_self)).bind ?_
    rintro ⟨failed, b'⟩ ⟨hb', -⟩
    cases failed with
    | true => exact .of_eq rfl hb'
    | false => exact ih hb' hqs fun q hq => hfits q (List.mem_cons_of_mem _ hq)

end

/-! ## Printing a format -/

section

variable {σ : Type} {libc : Libc} {put : VbufFn σ} {space : SpaceFn σ} {s : Bytes}
  {fmt : Option Vbuf}

/-- The parts of the format are printed one by one, whatever is behind the null byte. -/
theorem vbufPrint_follows (hfmt : ∀ vp ∈ fmt, vp.Sound) (h0 : 0 ∉ s) (b : VbufEnv σ) (junk : Bytes)
    (ap : List VaArg) :
    Follows (TooLong s.length) (vbufPrint libc put space fmt b (s ++ 0 :: junk) ap)
      (execItems libc put space (items s) b ap) fun st r =>
        st.fmt.Sound ∧ (st.b, st.ap) = r := by
  have hturns : s.length < (s ++ 0 :: junk).length := by
    rw [List.length_append, List.length_cons]
    omega
  unfold vbufPrint
  cases fmt with
  | none =>
    obtain ⟨vp, halloc, hh, -⟩ := vstringAlloc_spec (n := intSpace) (by decide) (by decide)
    have halloc' : vstringAlloc intSpace = pure vp := halloc
    simp only [halloc', pure_bind]
    exact vbufPrintLoop_follows ⟨_, hh⟩ le_rfl le_rfl hturns h0
  | some vp =>
    rw [pure_bind]
    exact vbufPrintLoop_follows (hfmt vp rfl) le_rfl le_rfl hturns h0

/-- The scan takes the format apart : its parts make up the format, and they are printed one by one
with their arguments, whatever is behind the null byte. At each percent sign, the string for
directives gets the directive with its stars replaced. -/
theorem vbufPrint_items (hfmt : ∀ vp ∈ fmt, vp.Sound) (h0 : 0 ∉ s) :
    (items s).flatMap Item.text = s ∧
    (∀ (b : VbufEnv σ) (junk : Bytes) (ap : List VaArg),
      Follows (TooLong s.length) (vbufPrint libc put space fmt b (s ++ 0 :: junk) ap)
        (execItems libc put space (items s) b ap) fun st r =>
          st.fmt.Sound ∧ (st.b, st.ap) = r) ∧
    (∀ t, byte '%' :: t <:+ s → ∀ (vp : Vbuf) (junk : Bytes) (ap : List VaArg), vp.Sound →
      Follows (TooLong s.length) (scanDirective vp ap (byte '%' :: t ++ 0 :: junk))
        ((takeDirective t).1.assemble ap) fun r q => r.2.1.Sound ∧ r.2.2.1 = q.2.2.2 ∧
          match (takeDirective t).2 with
          | [] => r.1 = none
          | type :: rest => r.1 = some ⟨type, q.2.1, q.2.2.1, (takeDirective t).1.long⟩ ∧
            vstringStr r.2.1 = q.1 ++ [type] ∧ r.2.2.2 = rest ++ 0 :: junk) ∧
    ∀ I, PrintReady IsPanic False put space I → ∀ (b : VbufEnv σ) (junk : Bytes) (ap : List VaArg),
      I b → ∀ st, vbufPrint libc put space fmt b (s ++ 0 :: junk) ap = .ok st →
      ∃ (ps : List Piece) (outs : List Bytes), pieces libc (items s) ap = .ok (ps, st.ap) ∧
        ps.map (Piece.out libc) = outs.map some ∧ st.b.written = b.written ++ outs.flatten := by
  refine ⟨items_text s, vbufPrint_follows hfmt h0, ?_, ?_⟩
  · intro t ht vp junk ap hvp
    exact scanDirective_follows hvp ap (fun hm => h0 (ht.subset (List.mem_cons_of_mem _ hm)))
      ht.length_le
  · intro I hI b junk ap hb st hst
    obtain ⟨r, hr, -, rfl⟩ := (vbufPrint_follows hfmt h0 b junk ap).ok st hst
    exact execItems_ok hI hb hr

end

/-- A field width is taken from the arguments, and nothing is printed for the directive at the
end. -/
theorem vbufPrint_items_star : ∃ vp st, vstringAlloc 1 = .ok vp ∧
    vbufPrint ⟨fun _ _ => none, []⟩ vstringBufPutReady vstringBufSpaceFn none ⟨vp, ()⟩
      (cstr "%*d%%%5" ++ [0]) [.int 5, .int 42] = .ok st ∧
    st.b.written = cstr "   42%" ∧
    ∃ (ps : List Piece) (outs : List Bytes),
      pieces ⟨fun _ _ => none, []⟩ (items (cstr "%*d%%%5")) [.int 5, .int 42] = .ok (ps, st.ap) ∧
        ps.map (Piece.out ⟨fun _ _ => none, []⟩) = outs.map some ∧
        st.b.written = VbufEnv.written ⟨vp, ()⟩ ++ outs.flatten := by
  obtain ⟨vp, halloc, hh, -⟩ := @vstringAlloc_spec 1 (by decide) (by decide)
  have hrun : ((vstringAlloc 1 >>= fun vp => vbufPrint ⟨fun _ _ => none, []⟩ vstringBufPutReady
      vstringBufSpaceFn none ⟨vp, ()⟩ (cstr "%*d%%%5" ++ [0]) [.int 5, .int 42]).toOption.any
      fun st => st.b.written = cstr "   42%") = true := by
    decide +kernel
  obtain ⟨st, hst, hw⟩ := (Option.any_eq_true _ _).1 hrun
  obtain ⟨vp', halloc', hst⟩ := bind_ok_iff.1 (toOption_eq_some hst)
  obtain rfl := Except.ok.inj (halloc.symm.trans halloc')
  have hitems := @vbufPrint_items Unit ⟨fun _ _ => none, []⟩ vstringBufPutReady vstringBufSpaceFn
    (cstr "%*d%%%5") none (fun _ h => by cases h) (by decide)
  obtain ⟨-, -, -, hpieces⟩ := hitems
  have hout := hpieces (fun b => b.bp.Sound) vstring_printReady ⟨vp, ()⟩ [] [.int 5, .int 42]
    ⟨_, hh⟩ st hst
  exact ⟨vp, st, halloc, hst, of_decide_eq_true hw, hout⟩

end Nowra
