import Nowra.MasterEnt

/-!
# The tokens of a line

What `get_master_ent` takes off a line are its tokens (`masterEntOfLine_eq`), and the tokens are the
bytes between the blanks (`strtokAll_cons`, `flatten_strtokAll`). Blanks at either end of a line
change nothing, and a line that is cut short has the same tokens but for the last.
-/

namespace Nowra

/-! ## Tokens and blanks -/

section

variable {sep : Bytes}

theorem strtokAll_nil : strtokAll sep [] = [] := rfl

theorem strtokAll_cons_sep {c : BitVec 8} (hc : c ∈ sep) (s : Bytes) :
    strtokAll sep (c :: s) = strtokAll sep s := by
  have hdrop : (c :: s).dropWhile (· ∈ sep) = s.dropWhile (· ∈ sep) :=
    List.dropWhile_cons_of_pos (decide_eq_true hc)
  rw [strtokAll_eq, strtokAll_eq sep s, mystrtok, mystrtok, hdrop]

/-- A token goes up to the next delimiter. -/
theorem strtokAll_cons {c : BitVec 8} (hc : c ∉ sep) (s : Bytes) : strtokAll sep (c :: s) =
    (c :: s.takeWhile (· ∉ sep)) :: strtokAll sep (s.dropWhile (· ∉ sep)) := by
  have hdrop : (c :: s).dropWhile (· ∈ sep) = c :: s :=
    List.dropWhile_cons_of_neg (by simpa using hc)
  have htok : mystrtok (c :: s) sep =
      (some (c :: s.takeWhile (· ∉ sep)), (s.dropWhile (· ∉ sep)).tail) := by
    rw [mystrtok, hdrop, if_neg (by simp)]
    rw [List.takeWhile_cons_of_pos (by simpa using hc),
      List.dropWhile_cons_of_pos (by simpa using hc)]
  rw [strtokAll_eq, htok]
  simp only
  cases hrest : s.dropWhile (· ∉ sep) with
  | nil => rfl
  | cons d t =>
    have hne : s.dropWhile (· ∉ sep) ≠ [] := hrest ▸ List.cons_ne_nil d t
    have hd := List.head_dropWhile_not (· ∉ sep) hne
    simp only [hrest, List.head_cons] at hd
    rw [List.tail_cons, strtokAll_cons_sep (by simpa using hd)]

/-- Induction along the tokens of a string. -/
theorem strtok_induction {P : Bytes → Prop} (nil : P [])
    (blank : ∀ c s, c ∈ sep → P s → P (c :: s))
    (token : ∀ c s, c ∉ sep → P (s.dropWhile (· ∉ sep)) → P (c :: s)) (s : Bytes) : P s := by
  induction hn : s.length using Nat.strong_induction_on generalizing s with
  | _ n ih =>
    cases s with
    | nil => exact nil
    | cons c s =>
      rw [List.length_cons] at hn
      by_cases hc : c ∈ sep
      · exact blank c s hc (ih s.length (by omega) s rfl)
      · have hle := List.length_dropWhile_le (· ∉ sep) s
        exact token c s hc (ih _ (by omega) _ rfl)

/-- The tokens are the bytes that are no delimiters. -/
theorem flatten_strtokAll (s : Bytes) : (strtokAll sep s).flatten = s.filter (· ∉ sep) := by
  induction s using @strtok_induction sep with
  | nil => rfl
  | blank c s hc ih => rw [strtokAll_cons_sep hc, ih, List.filter_cons_of_neg (by simpa using hc)]
  | token c s hc ih =>
    have htake : (s.takeWhile (· ∉ sep)).filter (· ∉ sep) = s.takeWhile (· ∉ sep) :=
      List.filter_eq_self.2 fun d hd => by simpa using List.mem_takeWhile_imp hd
    rw [strtokAll_cons hc, List.flatten_cons, ih, List.filter_cons_of_pos (by simpa using hc),
      List.cons_append, ← htake, ← List.filter_append, List.takeWhile_append_dropWhile]

theorem strtokAll_blanks {b : Bytes} (hb : ∀ c ∈ b, c ∈ sep) (s : Bytes) :
    strtokAll sep (b ++ s) = strtokAll sep s := by
  induction b with
  | nil => rfl
  | cons c b ih =>
    rw [List.cons_append, strtokAll_cons_sep (hb c (by simp)),
      ih fun d hd => hb d (List.mem_cons_of_mem _ hd)]

theorem strtokAll_append_blanks {b : Bytes} (hb : ∀ c ∈ b, c ∈ sep) (s : Bytes) :
    strtokAll sep (s ++ b) = strtokAll sep s := by
  induction s using @strtok_induction sep with
  | nil => simpa using strtokAll_blanks hb []
  | blank c s hc ih => rw [List.cons_append, strtokAll_cons_sep hc, strtokAll_cons_sep hc, ih]
  | token c s hc ih =>
    have htake : (s ++ b).takeWhile (· ∉ sep) = s.takeWhile (· ∉ sep) := by
      rw [List.takeWhile_append]
      split
      · rename_i hall
        have hnil : b.takeWhile (· ∉ sep) = [] := by
          cases b with
          | nil => rfl
          | cons d b => exact List.takeWhile_cons_of_neg (by simpa using hb d (by simp))
        rw [hnil, List.append_nil]
        exact (List.takeWhile_sublist _).eq_of_length hall |>.symm
      · rfl
    have hdrop : strtokAll sep ((s ++ b).dropWhile (· ∉ sep)) =
        strtokAll sep (s.dropWhile (· ∉ sep)) := by
      rw [List.dropWhile_append]
      split
      · rename_i hall
        have hsub : ∀ c ∈ b.dropWhile (· ∉ sep), c ∈ sep := fun c hc =>
          hb c ((List.dropWhile_sublist _).subset hc)
        have hnil : s.dropWhile (· ∉ sep) = [] := by simpa using hall
        rw [hnil]
        simpa using strtokAll_blanks hsub []
      · exact ih
    rw [List.cons_append, strtokAll_cons hc, strtokAll_cons hc, htake, hdrop]

/-- All tokens but the last are those of a longer string. -/
theorem dropLast_strtokAll (s r : Bytes) :
    (strtokAll sep s).dropLast <+: strtokAll sep (s ++ r) := by
  induction s using @strtok_induction sep with
  | nil => exact List.nil_prefix
  | blank c s hc ih => rwa [List.cons_append, strtokAll_cons_sep hc, strtokAll_cons_sep hc]
  | token c s hc ih =>
    rw [List.cons_append, strtokAll_cons hc, strtokAll_cons hc]
    cases htoks : strtokAll sep (s.dropWhile (· ∉ sep)) with
    | nil => exact List.nil_prefix
    | cons tok toks =>
      have hne : ¬(s.dropWhile (· ∉ sep)).isEmpty := by
        intro hnil
        rw [List.isEmpty_iff.1 hnil, strtokAll_nil] at htoks
        cases htoks
      have hlen : ¬(s.takeWhile (· ∉ sep)).length = s.length := by
        intro hlen
        have hsplit : s.takeWhile (· ∉ sep) ++ s.dropWhile (· ∉ sep) = s :=
          List.takeWhile_append_dropWhile
        have happ := congrArg List.length hsplit
        rw [List.length_append] at happ
        exact hne (List.isEmpty_iff.2 (List.length_eq_zero_iff.1 (by omega)))
      rw [htoks] at ih
      rw [List.takeWhile_append, if_neg hlen, List.dropWhile_append, if_neg hne,
        List.dropLast_cons_of_ne_nil (by simp)]
      exact (List.prefix_cons_inj _).2 ih

end

/-! ## Entries as tokens -/

/-- `get_str_ent` on the tokens of the line. -/
def strOfTokens (name : String) (defVal : Option Bytes) :
    List Bytes → Except EntError (Bytes × List Bytes)
  | [] => throw (.missingField name)
  | value :: toks =>
    if value = cstr "-" then
      match defVal with
      | none => throw (.noDefaultValue name)
      | some defVal => pure (defVal, toks)
    else pure (value, toks)

/-- The text of a field for its token. -/
def fieldValue (defVal tok : Bytes) : Bytes := if tok = cstr "-" then defVal else tok

/-- `get_int_ent` on the tokens of the line. -/
def intOfTokens (name : String) (defVal : Bytes) (minVal : ℤ) (toks : List Bytes) :
    Except EntError ({n : ℤ // minVal ≤ n} × List Bytes) := do
  let (value, toks) ← strOfTokens name (some defVal) toks
  if h : minVal ≤ atoi value then pure (⟨atoi value, h⟩, toks)
  else throw (.badValue name value)

/-- The entry of a line with its tokens. The byte `first` is where the flag for a conditional
wake-up says which byte in front of the buffer is read. -/
def entOfTokens (before : BitVec 8 × BitVec 8) (first : BitVec 8) (cp : Bytes)
    (toks : List Bytes) : Except EntError EntLine := do
  let name := cp
  let (transport, toks) ← strOfTokens "transport type" none toks
  if transport ≠ masterXportNameInet then throw (.badTransportType transport)
  let (host, port) := hostPort name
  let (wakeupTime, toks) ← intOfTokens "wakeup_time" (cstr "0") 0 toks
  let condwake := 0 < wakeupTime.val ∧
    (if first ≠ 0 then before.2 else before.1) = BitVec.ofNat 8 '?'.toNat
  let (maxProc, toks) ← intOfTokens "max_proc" (fmtInt varProcLimit) 0 toks
  let (command, toks) ← strOfTokens "command" none toks
  pure
    { name := name, transport := transport, host := host, port := port, wakeupTime := wakeupTime
      condwake := condwake, maxProc := maxProc, command := command, args := toks }

theorem strOfTokens_ok {name : String} {toks rest : List Bytes} {value : Bytes}
    (h : strOfTokens name none toks = .ok (value, rest)) : toks = value :: rest := by
  unfold strOfTokens at h
  split at h
  · cases h
  · split at h
    · cases h
    · obtain ⟨rfl, rfl⟩ := Prod.mk.inj (Except.ok.inj h)
      rfl

theorem strOfTokens_cons (name : String) (defVal tok : Bytes) (toks : List Bytes) :
    strOfTokens name (some defVal) (tok :: toks) = .ok (fieldValue defVal tok, toks) := by
  simp only [strOfTokens, fieldValue]
  split <;> rfl

theorem intOfTokens_ok {name : String} {defVal : Bytes} {minVal : ℤ} {toks rest : List Bytes}
    {n : {n : ℤ // minVal ≤ n}} (h : intOfTokens name defVal minVal toks = .ok (n, rest)) :
    ∃ tok, toks = tok :: rest ∧ n.val = atoi (fieldValue defVal tok) := by
  cases toks with
  | nil => cases h
  | cons tok toks =>
    rw [intOfTokens, strOfTokens_cons] at h
    simp only [bind, Except.bind] at h
    split at h
    · obtain ⟨rfl, rfl⟩ := Prod.mk.inj (Except.ok.inj h)
      exact ⟨tok, rfl, rfl⟩
    · cases h

/-- The reads that an entry comes of. -/
theorem entOfTokens_reads {before : BitVec 8 × BitVec 8} {first : BitVec 8} {cp : Bytes}
    {toks : List Bytes} {ent : EntLine} (h : entOfTokens before first cp toks = .ok ent) :
    ∃ toks₁ time toks₂ maxProc toks₃ command args,
      strOfTokens "transport type" none toks = .ok (masterXportNameInet, toks₁) ∧
      intOfTokens "wakeup_time" (cstr "0") 0 toks₁ = .ok (time, toks₂) ∧
      intOfTokens "max_proc" (fmtInt varProcLimit) 0 toks₂ = .ok (maxProc, toks₃) ∧
      strOfTokens "command" none toks₃ = .ok (command, args) ∧
      ent =
        { name := cp, transport := masterXportNameInet, host := (hostPort cp).1
          port := (hostPort cp).2, wakeupTime := time
          condwake := 0 < time.val ∧
            (if first ≠ 0 then before.2 else before.1) = BitVec.ofNat 8 '?'.toNat
          maxProc := maxProc, command := command, args := args } := by
  obtain ⟨⟨transport, toks₁⟩, htransport, h⟩ := bind_ok_iff.1 h
  by_cases ht : transport = masterXportNameInet
  · subst ht
    simp only [ne_eq, not_true, if_false] at h
    obtain ⟨⟨time, toks₂⟩, htime, h⟩ := bind_ok_iff.1 h
    obtain ⟨⟨maxProc, toks₃⟩, hmax, h⟩ := bind_ok_iff.1 h
    obtain ⟨⟨command, args⟩, hcommand, h⟩ := bind_ok_iff.1 h
    exact ⟨toks₁, time, toks₂, maxProc, toks₃, command, args, htransport, htime, hmax, hcommand,
      (Except.ok.inj h).symm⟩
  · simp only [ne_eq, ht, not_false_eq_true, if_true] at h
    cases h

/-- The tokens of an entry, and what is stored of them. -/
theorem entOfTokens_ok {before : BitVec 8 × BitVec 8} {first : BitVec 8} {cp : Bytes}
    {toks : List Bytes} {ent : EntLine} (h : entOfTokens before first cp toks = .ok ent) :
    ent.name = cp ∧ ∃ wakeup limit,
      toks = masterXportNameInet :: wakeup :: limit :: ent.command :: ent.args ∧
      ent.wakeupTime.val = atoi (fieldValue (cstr "0") wakeup) ∧
      ent.maxProc.val = atoi (fieldValue (fmtInt varProcLimit) limit) ∧
      ent.condwake = decide (0 < ent.wakeupTime.val ∧
        (if first ≠ 0 then before.2 else before.1) = BitVec.ofNat 8 '?'.toNat) := by
  obtain ⟨toks₁, time, toks₂, maxProc, toks₃, command, args, htransport, htime, hmax, hcommand,
    rfl⟩ := entOfTokens_reads h
  obtain ⟨wakeup, hwakeup, htime⟩ := intOfTokens_ok htime
  obtain ⟨limit, hlimit, hmax⟩ := intOfTokens_ok hmax
  refine ⟨rfl, wakeup, limit, ?_, htime, hmax, rfl⟩
  rw [strOfTokens_ok htransport, hwakeup, hlimit, strOfTokens_ok hcommand]

/-- Of the memory in front of the buffer only the flag depends. -/
theorem entOfTokens_condwake {before : BitVec 8 × BitVec 8} {first : BitVec 8} {cp : Bytes}
    {toks : List Bytes} {ent : EntLine} (h : entOfTokens before first cp toks = .ok ent)
    (before' : BitVec 8 × BitVec 8) (first' : BitVec 8) :
    entOfTokens before' first' cp toks = .ok
      { ent with condwake := 0 < ent.wakeupTime.val ∧
          (if first' ≠ 0 then before'.2 else before'.1) = BitVec.ofNat 8 '?'.toNat } := by
  obtain ⟨toks₁, time, toks₂, maxProc, toks₃, command, args, htransport, htime, hmax, hcommand,
    rfl⟩ := entOfTokens_reads h
  refine bind_ok_iff.2 ⟨_, htransport, ?_⟩
  simp only [ne_eq, not_true, if_false]
  exact bind_ok_iff.2 ⟨_, htime, bind_ok_iff.2 ⟨_, hmax, bind_ok_iff.2 ⟨_, hcommand, rfl⟩⟩⟩

theorem getStrEnt_tokens (bufp : Bytes) (name : String) (defVal : Option Bytes) :
    strOfTokens name defVal (strtokAll masterBlanks bufp) =
      (fun r => (r.1, strtokAll masterBlanks r.2)) <$> getStrEnt bufp name defVal := by
  rw [strtokAll_eq, getStrEnt]
  cases mystrtok bufp masterBlanks with
  | mk tok rest =>
    cases tok with
    | none => rfl
    | some value =>
      simp only [strOfTokens]
      split
      · cases defVal <;> rfl
      · rfl

theorem getIntEnt_tokens (bufp : Bytes) (name : String) (defVal : Bytes) (minVal : ℤ) :
    intOfTokens name defVal minVal (strtokAll masterBlanks bufp) =
      (fun r => (r.1, strtokAll masterBlanks r.2)) <$> getIntEnt bufp name defVal minVal := by
  rw [intOfTokens, getIntEnt, getStrEnt_tokens]
  cases getStrEnt bufp name (some defVal) with
  | error e => rfl
  | ok r =>
    simp only [Functor.map, Except.map, bind, Except.bind]
    split <;> rfl

/-- The entry of a line is the entry of its tokens. -/
theorem masterEntOfLine_eq (before : BitVec 8 × BitVec 8) (buf cp bufp : Bytes) :
    masterEntOfLine before buf cp bufp =
      entOfTokens before (buf.headD 0) cp (strtokAll masterBlanks bufp) := by
  unfold masterEntOfLine entOfTokens
  rw [getStrEnt_tokens, bind_map_left]
  refine congrArg (getStrEnt bufp "transport type" none >>= ·) (funext fun r => ?_)
  obtain ⟨transport, bufp⟩ := r
  by_cases ht : transport = masterXportNameInet
  · simp only [ht, ne_eq, not_true, if_false]
    rw [getIntEnt_tokens, bind_map_left]
    refine congrArg (getIntEnt bufp "wakeup_time" (cstr "0") 0 >>= ·) (funext fun r => ?_)
    simp only
    rw [getIntEnt_tokens, bind_map_left]
    refine congrArg (getIntEnt r.2 "max_proc" (fmtInt varProcLimit) 0 >>= ·) (funext fun r => ?_)
    simp only
    rw [getStrEnt_tokens, bind_map_left]
  · simp only [ht, ne_eq, not_false_eq_true, if_true]
    rfl

end Nowra
