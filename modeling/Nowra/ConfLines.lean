import Mathlib.Data.List.Forall2
import Nowra.Tokens

/-!
# Lines of the configuration file

`get_master_ent` reads at most 1023 bytes at a time. A longer line is read in pieces, and every
piece is taken for a line : the second piece of a comment can be an entry, and that of an entry can
be another one.

A file whose lines are all well formed gives one entry for each line that is not blank and no
comment, in their order, if and only if no piece of another line looks like an entry, and a line
with an entry has only one piece that is not blank (`entries_correspond_iff`). Lines of no more than
1023 bytes have one piece (`lineFits_of_length_le`).
-/

namespace Nowra

/-! ## Lines and pieces -/

/-- `'\n'` -/
def newline : BitVec 8 := BitVec.ofNat 8 '\n'.toNat

/-- The lines of a file. -/
def confLines (fp : Bytes) : List Bytes := fp.splitOn newline

/-- The line is not blank, and does not start with `#` after blanks. -/
def isEntry (line : Bytes) : Bool :=
  (line.dropWhile (· ∈ masterBlanks)).head?.any (· ≠ BitVec.ofNat 8 '#'.toNat)

/-- The lines with an entry. -/
def entryLines (fp : Bytes) : List Bytes := (confLines fp).filter isEntry

/-- The entry of a whole line. -/
def lineEnt (before : BitVec 8 × BitVec 8) (line : Bytes) : Except EntError EntLine :=
  match mystrtok line masterBlanks with
  | (none, _) => throw (.missingField "")
  | (some cp, bufp) => masterEntOfLine before line cp bufp

/-- The entries that repeated calls of `get_master_ent` return until there is no more. The `i`-th
call finds `before i` in front of its buffer. -/
inductive ReadsEnts (before : ℕ → BitVec 8 × BitVec 8) : ℕ → Bytes → List EntLine → Prop
  | done {i : ℕ} {fp : Bytes} (h : readMasterEnt (before i) fp = .ok none) :
    ReadsEnts before i fp []
  | more {i : ℕ} {fp fp' : Bytes} {ent : EntLine} {ents : List EntLine}
      (h : readMasterEnt (before i) fp = .ok (some (ent, fp')))
      (hrest : ReadsEnts before (i + 1) fp' ents) : ReadsEnts before i fp (ent :: ents)

/-- The entries are those of the lines, one after the other. -/
def EntsOf (before : ℕ → BitVec 8 × BitVec 8) (i : ℕ) (lines : List Bytes)
    (ents : List EntLine) : Prop :=
  List.Forall₂ (fun x ent => lineEnt (before x.2) x.1 = .ok ent) (lines.zipIdx i) ents

/-- Reading the file returns the entries of its lines. -/
def Corresponds (before : ℕ → BitVec 8 × BitVec 8) (fp : Bytes) : Prop :=
  ∃ ents, ReadsEnts before 0 fp ents ∧ EntsOf before 0 (entryLines fp) ents

/-- The pieces in which a line is read. -/
def linePieces (line : Bytes) : List Bytes :=
  if line = [] then [] else line.take 1023 :: linePieces (line.drop 1023)
termination_by line.length
decreasing_by
  have := List.length_pos_of_ne_nil ‹_›
  rw [List.length_drop]
  omega

/-- There is nothing but blanks. -/
def Blank (s : Bytes) : Prop := ∀ c ∈ s, c ∈ masterBlanks

instance (s : Bytes) : Decidable (Blank s) := inferInstanceAs (Decidable (∀ c ∈ s, _))

/-- No piece of a line without an entry looks like one, and one with an entry has only one piece
that is not blank. -/
def LineFits (line : Bytes) : Prop :=
  if isEntry line then ((linePieces line).filter (¬Blank ·)).length ≤ 1
  else ∀ p ∈ linePieces line, isEntry p = false

section

variable {before : ℕ → BitVec 8 × BitVec 8} {i : ℕ} {line : Bytes} {lines : List Bytes}
  {ent : EntLine} {ents : List EntLine}

@[simp] theorem entsOf_nil : EntsOf before i [] ents ↔ ents = [] := by
  simp [EntsOf]

@[simp] theorem entsOf_cons : EntsOf before i (line :: lines) (ent :: ents) ↔
    lineEnt (before i) line = .ok ent ∧ EntsOf before (i + 1) lines ents := by
  simp [EntsOf]

theorem EntsOf.length_eq (h : EntsOf before i lines ents) : lines.length = ents.length := by
  simpa using List.Forall₂.length_eq h

/-! ## Lines and tokens -/

theorem lineEnt_eq (before : BitVec 8 × BitVec 8) (line : Bytes) : lineEnt before line =
    match strtokAll masterBlanks line with
    | [] => throw (.missingField "")
    | cp :: toks => entOfTokens before (line.headD 0) cp toks := by
  rw [lineEnt, strtokAll_eq]
  cases mystrtok line masterBlanks with
  | mk tok bufp =>
    cases tok with
    | none => rfl
    | some cp => exact masterEntOfLine_eq before line cp bufp

/-- The first token of a line with an entry does not start with `#`. -/
theorem isEntry_iff_strtokAll : isEntry line ↔
    ∃ cp toks, strtokAll masterBlanks line = cp :: toks ∧
      cp.head? ≠ some (BitVec.ofNat 8 '#'.toNat) := by
  induction line with
  | nil => simp [isEntry, strtokAll_nil]
  | cons c s ih =>
    by_cases hc : c ∈ masterBlanks
    · have hdrop : (c :: s).dropWhile (· ∈ masterBlanks) = s.dropWhile (· ∈ masterBlanks) :=
        List.dropWhile_cons_of_pos (decide_eq_true hc)
      rw [strtokAll_cons_sep hc, ← ih, isEntry, isEntry, hdrop]
    · rw [strtokAll_cons hc, isEntry, List.dropWhile_cons_of_neg (by simpa using hc)]
      simp

theorem blank_iff_dropWhile {s : Bytes} : Blank s ↔ s.dropWhile (· ∈ masterBlanks) = [] := by
  simp [Blank]

theorem not_isEntry_of_blank (h : Blank line) : isEntry line = false := by
  simp [isEntry, blank_iff_dropWhile.1 h]

/-- What makes a string a line with an entry is its first byte that is not blank. -/
theorem isEntry_append_of_not_blank {s : Bytes} (h : ¬Blank s) (r : Bytes) :
    isEntry (s ++ r) = isEntry s := by
  obtain ⟨c, t, ht⟩ := List.exists_cons_of_ne_nil (mt blank_iff_dropWhile.2 h)
  simp [isEntry, List.dropWhile_append, ht]

theorem isEntry_blank_append {b : Bytes} (h : Blank b) (s : Bytes) :
    isEntry (b ++ s) = isEntry s := by
  rw [isEntry, isEntry, List.dropWhile_append, blank_iff_dropWhile.1 h, List.isEmpty_nil,
    if_pos rfl]

/-- Two strings that make the same entry. -/
def SameEnt (s t : Bytes) : Prop := ∀ before, lineEnt before s = lineEnt before t

/-- Blanks around a string change nothing. -/
theorem sameEnt_of_blank {b s r : Bytes} (hb : Blank b) (hr : Blank r) (hs : isEntry s)
    (h0 : 0 ∉ b ++ s ++ r) : SameEnt (b ++ s ++ r) s := by
  intro before
  have htoks : strtokAll masterBlanks (b ++ s ++ r) = strtokAll masterBlanks s := by
    rw [strtokAll_append_blanks hr, strtokAll_blanks hb]
  obtain ⟨cp, toks, hcp, -⟩ := isEntry_iff_strtokAll.1 hs
  have hhead : ∀ {t : Bytes}, t ≠ [] → 0 ∉ t → t.headD 0 ≠ 0 := by
    intro t ht h0
    cases t with
    | nil => exact absurd rfl ht
    | cons c t => exact fun hc => h0 (by simp_all)
  have hne : s ≠ [] := by
    rintro rfl
    rw [strtokAll_nil] at hcp
    cases hcp
  have h₁ : (b ++ s ++ r).headD 0 ≠ 0 := hhead (by simp [hne]) h0
  have h₂ : s.headD 0 ≠ 0 :=
    hhead hne fun hm => h0 (List.mem_append_left _ (List.mem_append_right _ hm))
  rw [lineEnt_eq, lineEnt_eq, htoks, hcp]
  simp only [entOfTokens, ne_eq, h₁, h₂, not_false_eq_true, if_true]

/-! ## The strings that are read -/

theorem fgets_eq_some {size : ℕ} {fp buf fp' : Bytes} (h : fgets size fp = some (buf, fp'))
    (hsize : 1 < size) : fp'.length < fp.length := by
  unfold fgets at h
  split at h
  · cases h
  · have hpos := List.length_pos_of_ne_nil ‹_›
    obtain ⟨-, rfl⟩ := Prod.mk.inj (Option.some.inj h)
    rw [List.length_drop]
    omega

/-- The strings that `fgets` reads one after the other. -/
def bufs (fp : Bytes) : List Bytes :=
  match h : fgets 1024 fp with
  | none => []
  | some (buf, fp') =>
    have := fgets_eq_some h (by decide)
    buf :: bufs fp'
termination_by fp.length

theorem bufs_eq (fp : Bytes) : bufs fp =
    match fgets 1024 fp with
    | none => []
    | some (buf, fp') => buf :: bufs fp' := by
  rw [bufs]
  split <;> simp_all only

theorem bufs_nil : bufs [] = [] := bufs_eq []

theorem bufs_of_ne_nil {fp : Bytes} (h0 : 0 ∉ fp) (hne : fp ≠ []) {n : ℕ}
    (hn : n = min ((fp.takeWhile (· ≠ newline)).length + 1) 1023) :
    bufs fp = fp.take n :: bufs (fp.drop n) := by
  have hbuf := takeWhile_null_of_notMem fun hm => h0 (List.mem_of_mem_take (i := n) hm)
  have hfgets : fgets 1024 fp = some (fp.take n, fp.drop n) := by
    rw [hn] at hbuf ⊢
    rw [fgets, if_neg hne]
    exact congrArg some (Prod.ext hbuf rfl)
  rw [bufs_eq, hfgets]

theorem isEntry_iff_mystrtok : isEntry line ↔
    ∃ cp bufp, mystrtok line masterBlanks = (some cp, bufp) ∧
      cp.head? ≠ some (BitVec.ofNat 8 '#'.toNat) := by
  rw [isEntry_iff_strtokAll, strtokAll_eq]
  cases mystrtok line masterBlanks with
  | mk tok bufp => cases tok <;> simp

/-- The loop over lines stops at the next string that looks like an entry. -/
theorem skipLines_bufs {n : ℕ} {fp : Bytes} (hn : fp.length ≤ n) :
    (skipLines n fp = none ∧ (bufs fp).filter isEntry = []) ∨
      ∃ s, skipLines n fp = some s ∧ mystrtok s.buf masterBlanks = (some s.cp, s.bufp) ∧
        (bufs fp).filter isEntry = s.buf :: (bufs s.fp).filter isEntry := by
  induction n generalizing fp with
  | zero =>
    obtain rfl := List.eq_nil_of_length_eq_zero (Nat.le_zero.1 hn)
    exact .inl ⟨rfl, by rw [bufs_nil]; rfl⟩
  | succ n ih =>
    rw [skipLines, bufs_eq]
    cases h : fgets 1024 fp with
    | none => exact .inl ⟨rfl, rfl⟩
    | some r =>
      obtain ⟨buf, fp'⟩ := r
      have hlt := fgets_eq_some h (by decide)
      have ih := @ih fp' (by omega)
      simp only
      cases hm : mystrtok buf masterBlanks with
      | mk tok bufp =>
        have hentry := @isEntry_iff_mystrtok buf
        rw [hm] at hentry
        cases tok with
        | none => rwa [List.filter_cons_of_neg (by simp [hentry])]
        | some cp =>
          simp only
          by_cases hc : cp.head? = some (BitVec.ofNat 8 '#'.toNat)
          · have hno : ¬isEntry buf := by
              rw [hentry]
              rintro ⟨cp', bufp', heq, hne⟩
              cases heq
              exact hne hc
            rwa [if_pos hc, List.filter_cons_of_neg hno]
          · rw [if_neg hc, List.filter_cons_of_pos (hentry.2 ⟨cp, bufp, rfl, hc⟩)]
            exact .inr ⟨_, rfl, hm, rfl⟩

/-- Repeated calls return the entries of the strings that look like one. -/
theorem readsEnts_iff {fp : Bytes} : ReadsEnts before i fp ents ↔
    EntsOf before i ((bufs fp).filter isEntry) ents := by
  induction ents generalizing i fp with
  | nil =>
    rcases skipLines_bufs (le_refl fp.length) with ⟨hskip, hbufs⟩ | ⟨s, hskip, hm, hbufs⟩
    · rw [hbufs]
      refine iff_of_true (.done ?_) (entsOf_nil.2 rfl)
      rw [readMasterEnt, hskip]
      rfl
    · rw [hbufs]
      refine iff_of_false (fun hread => ?_) fun h => by cases h.length_eq
      cases hread with
      | done h =>
        simp only [readMasterEnt, hskip] at h
        obtain ⟨ent, -, h⟩ := bind_ok_iff.1 h
        cases h
  | cons ent ents ih =>
    rcases skipLines_bufs (le_refl fp.length) with ⟨hskip, hbufs⟩ | ⟨s, hskip, hm, hbufs⟩
    · rw [hbufs]
      refine iff_of_false (fun hread => ?_) fun h => by cases h.length_eq
      cases hread with
      | more h hrest =>
        rw [readMasterEnt, hskip] at h
        cases h
    · have hline : lineEnt (before i) s.buf = masterEntOfLine (before i) s.buf s.cp s.bufp := by
        rw [lineEnt, hm]
      rw [hbufs, entsOf_cons, hline, ← ih]
      constructor
      · intro hread
        cases hread with
        | more h hrest =>
          simp only [readMasterEnt, hskip] at h
          obtain ⟨ent', hent, h⟩ := bind_ok_iff.1 h
          obtain ⟨rfl, rfl⟩ := Prod.mk.inj (Option.some.inj (Except.ok.inj h))
          exact ⟨hent, hrest⟩
      · rintro ⟨hent, hrest⟩
        refine .more ?_ hrest
        simp only [readMasterEnt, hskip]
        exact bind_ok_iff.2 ⟨ent, hent, rfl⟩

/-! ## Lines in pieces -/

@[simp] theorem linePieces_nil : linePieces [] = [] := by rw [linePieces, if_pos rfl]

theorem linePieces_of_ne_nil (h : line ≠ []) :
    linePieces line = line.take 1023 :: linePieces (line.drop 1023) := by
  rw [linePieces, if_neg h]

theorem flatten_linePieces (line : Bytes) : (linePieces line).flatten = line := by
  induction line using linePieces.induct with
  | case1 => rw [linePieces_nil, List.flatten_nil]
  | case2 line hne ih =>
    rw [linePieces_of_ne_nil hne, List.flatten_cons, ih, List.take_append_drop]

theorem filter_linePieces {line : Bytes} (h : line.length ≤ 1023) :
    (linePieces line).filter isEntry = [line].filter isEntry := by
  cases line with
  | nil => rw [linePieces_nil, List.filter_cons_of_neg (by decide)]
  | cons c s =>
    rw [linePieces_of_ne_nil (by simp), List.take_of_length_le h, List.drop_of_length_le h,
      linePieces_nil]

/-- What follows 1023 bytes of a line is a piece. -/
theorem mem_linePieces_append {s r : Bytes} (hs : s.length = 1023) (hne : r ≠ [])
    (hr : r.length ≤ 1023) : r ∈ linePieces (s ++ r) := by
  have hnil : s ++ r ≠ [] := by simp [hne]
  rw [linePieces_of_ne_nil hnil, List.drop_append_of_le_length hs.ge, List.drop_of_length_le hs.le,
    List.nil_append, linePieces_of_ne_nil hne, List.take_of_length_le hr]
  exact List.mem_cons_of_mem _ List.mem_cons_self

/-- The first line of a file and the others. -/
theorem exists_confLines (fp : Bytes) : ∃ line rest tl, fp = line ++ rest ∧
    fp.takeWhile (· ≠ newline) = line ∧ newline ∉ line ∧
    (∀ line', newline ∉ line' → confLines (line' ++ rest) = line' :: tl) ∧
    (rest = [] ∧ tl = [] ∨ ∃ fp', rest = newline :: fp' ∧ tl = confLines fp') := by
  have htake : ∀ {s : Bytes}, newline ∉ s → ∀ c ∈ s, decide (c ≠ newline) = true :=
    fun hs c hc => decide_eq_true fun heq => hs (heq ▸ hc)
  by_cases hmem : newline ∈ fp
  · obtain ⟨line, fp', rfl, hline⟩ := List.eq_append_cons_of_mem hmem
    refine ⟨line, newline :: fp', confLines fp', rfl, ?_, hline, fun line' hline' => ?_,
      .inr ⟨fp', rfl, rfl⟩⟩
    · rw [List.takeWhile_append_of_pos (htake hline), List.takeWhile_cons_of_neg (by simp),
        List.append_nil]
    · exact List.splitOn_append_cons_self_of_not_mem hline' fp'
  · refine ⟨fp, [], [], (List.append_nil fp).symm, ?_, hmem, fun line' hline' => ?_,
      .inl ⟨rfl, rfl⟩⟩
    · exact List.takeWhile_eq_self_iff.2 (htake hmem)
    · rw [List.append_nil]
      exact List.splitOn_eq_singleton hline'

theorem SameEnt.refl (s : Bytes) : SameEnt s s := fun _ => rfl

/-- The newline at the end of a string changes nothing. -/
theorem sameEnt_newline {s : Bytes} (h0 : 0 ∉ s) :
    isEntry (s ++ [newline]) = isEntry s ∧ (isEntry s → SameEnt (s ++ [newline]) s) := by
  have hnl : Blank [newline] := by decide
  refine ⟨?_, fun hs => ?_⟩
  · by_cases hb : Blank s
    · rw [isEntry_blank_append hb, not_isEntry_of_blank hnl, not_isEntry_of_blank hb]
    · exact isEntry_append_of_not_blank hb _
  · have h := sameEnt_of_blank (b := []) (r := [newline]) (by simp [Blank]) hnl hs
    exact h (by simpa [newline] using h0)

theorem forall₂_filter_cons {b p : Bytes} {bs ps : List Bytes} (hentry : isEntry b = isEntry p)
    (hsame : isEntry p → SameEnt b p)
    (hrest : List.Forall₂ SameEnt (bs.filter isEntry) (ps.filter isEntry)) :
    List.Forall₂ SameEnt ((b :: bs).filter isEntry) ((p :: ps).filter isEntry) := by
  by_cases hp : isEntry p
  · rw [List.filter_cons_of_pos hp, List.filter_cons_of_pos (hentry ▸ hp)]
    exact .cons (hsame hp) hrest
  · rwa [List.filter_cons_of_neg hp, List.filter_cons_of_neg (hentry ▸ hp)]

/-- The strings that look like an entry are those pieces of lines that do. -/
theorem forall₂_bufs_linePieces {fp : Bytes} (h0 : 0 ∉ fp) :
    List.Forall₂ SameEnt ((bufs fp).filter isEntry)
      (((confLines fp).flatMap linePieces).filter isEntry) := by
  induction hn : fp.length using Nat.strong_induction_on generalizing fp with
  | _ n ih =>
    subst hn
    by_cases hne : fp = []
    · subst hne
      rw [bufs_nil, confLines, List.splitOn_nil, List.flatMap_singleton, linePieces_nil]
      exact .nil
    obtain ⟨line, rest, tl, rfl, htake, hline, hlines, hrest⟩ := exists_confLines fp
    have hpos := List.length_pos_of_ne_nil hne
    have h0line : 0 ∉ line := fun hm => h0 (List.mem_append_left _ hm)
    rw [hlines line hline, List.flatMap_cons]
    by_cases hlen : 1023 ≤ line.length
    · have hnil : line ≠ [] := List.ne_nil_of_length_pos (by omega)
      have h := ih (line.drop 1023 ++ rest).length (by simp at hpos ⊢; omega)
        (fun hm => h0 (by
          rw [← List.drop_append_of_le_length hlen] at hm
          exact List.mem_of_mem_drop hm)) rfl
      rw [hlines _ fun hm => hline (List.mem_of_mem_drop hm), List.flatMap_cons] at h
      rw [bufs_of_ne_nil h0 hne (n := 1023) (by rw [htake]; omega),
        List.take_append_of_le_length hlen, List.drop_append_of_le_length hlen,
        linePieces_of_ne_nil hnil, List.cons_append]
      exact forall₂_filter_cons rfl (fun _ => .refl _) h
    · have hbufs := bufs_of_ne_nil h0 hne (n := line.length + 1) (by rw [htake]; omega)
      rw [hbufs, List.filter_append, filter_linePieces (by omega), ← List.filter_append,
        List.singleton_append]
      rcases hrest with ⟨rfl, rfl⟩ | ⟨fp', rfl, rfl⟩
      · rw [List.append_nil, List.take_of_length_le (by omega), List.drop_of_length_le (by omega),
          bufs_nil]
        exact forall₂_filter_cons rfl (fun _ => .refl _) .nil
      · have htl : (line ++ newline :: fp').take (line.length + 1) = line ++ [newline] ∧
            (line ++ newline :: fp').drop (line.length + 1) = fp' := by
          simp [List.take_append, List.drop_append, List.take_of_length_le]
        rw [htl.1, htl.2]
        obtain ⟨hentry, hsame⟩ := sameEnt_newline h0line
        exact forall₂_filter_cons hentry hsame
          (ih fp'.length (by simp; omega)
            (fun hm => h0 (List.mem_append_right _ (List.mem_cons_of_mem _ hm))) rfl)

/-! ## One entry a line -/

/-- The first piece of a line with an entry that is not blank looks like an entry. -/
theorem exists_piece (h : isEntry line) :
    ∃ ps p qs, linePieces line = ps ++ p :: qs ∧ (∀ q ∈ ps, Blank q) ∧ isEntry p := by
  induction line using linePieces.induct with
  | case1 => cases h
  | case2 line hne ih =>
    rw [linePieces_of_ne_nil hne]
    by_cases hb : Blank (line.take 1023)
    · rw [← List.take_append_drop 1023 line, isEntry_blank_append hb] at h
      obtain ⟨ps, p, qs, heq, hps, hp⟩ := ih h
      exact ⟨line.take 1023 :: ps, p, qs, by rw [heq, List.cons_append],
        List.forall_mem_cons.2 ⟨hb, hps⟩, hp⟩
    · rw [← List.take_append_drop 1023 line, isEntry_append_of_not_blank hb] at h
      exact ⟨[], line.take 1023, _, rfl, by simp, h⟩

theorem blank_flatten {ss : List Bytes} : Blank ss.flatten ↔ ∀ s ∈ ss, Blank s := by
  simp only [Blank, List.mem_flatten]
  exact ⟨fun h s hs c hc => h c ⟨s, hs, hc⟩, fun h c ⟨s, hs, hc⟩ => h s hs c hc⟩

section

variable {p : Bytes} {ps qs : List Bytes}

theorem lineFits_iff_of_piece (hline : isEntry line) (hpieces : linePieces line = ps ++ p :: qs)
    (hps : ∀ q ∈ ps, Blank q) (hp : isEntry p) : LineFits line ↔ Blank qs.flatten := by
  have hps' : ps.filter (¬Blank ·) = [] :=
    List.filter_eq_nil_iff.2 fun q hq => by simpa using hps q hq
  have hp' : ¬Blank p := fun hb => by simp [not_isEntry_of_blank hb] at hp
  rw [LineFits, if_pos hline, hpieces, List.filter_append, hps', List.nil_append,
    List.filter_cons_of_pos (by simpa using hp'), List.length_cons, blank_flatten]
  simp [List.length_eq_zero_iff]

theorem filter_linePieces_of_piece (hpieces : linePieces line = ps ++ p :: qs)
    (hps : ∀ q ∈ ps, Blank q) (hp : isEntry p) :
    (linePieces line).filter isEntry = p :: qs.filter isEntry := by
  have hps' : ps.filter isEntry = [] :=
    List.filter_eq_nil_iff.2 fun q hq => by simp [not_isEntry_of_blank (hps q hq)]
  rw [hpieces, List.filter_append, hps', List.nil_append, List.filter_cons_of_pos hp]

/-- A line and a piece of it with the same entry have the same tokens. -/
theorem blank_of_lineEnt_eq {before : BitVec 8 × BitVec 8}
    (hpieces : linePieces line = ps ++ p :: qs) (hps : ∀ q ∈ ps, Blank q)
    (hline : lineEnt before line = .ok ent) (hp : lineEnt before p = .ok ent) :
    Blank qs.flatten := by
  have hflat : line = ps.flatten ++ (p ++ qs.flatten) := by
    rw [← flatten_linePieces line, hpieces, List.flatten_append, List.flatten_cons]
  have htoks : strtokAll masterBlanks line = strtokAll masterBlanks (p ++ qs.flatten) := by
    rw [hflat, strtokAll_blanks (blank_flatten.2 hps)]
  have hfields : ∀ {s : Bytes}, lineEnt before s = .ok ent → ∃ wakeup limit,
      strtokAll masterBlanks s =
        ent.name :: masterXportNameInet :: wakeup :: limit :: ent.command :: ent.args := by
    intro s h
    rw [lineEnt_eq] at h
    split at h
    · cases h
    · rename_i cp toks heq
      obtain ⟨hname, wakeup, limit, rfl, -⟩ := entOfTokens_ok h
      exact ⟨wakeup, limit, by rw [heq, hname]⟩
  obtain ⟨w, m, hw⟩ := hfields hline
  obtain ⟨w', m', hw'⟩ := hfields hp
  rw [htoks] at hw
  -- a piece has all tokens of the line but for the last, and that is stored
  have hprefix := @dropLast_strtokAll masterBlanks p qs.flatten
  rw [hw, hw', List.dropLast_cons_of_ne_nil (by simp), List.dropLast_cons_of_ne_nil (by simp),
    List.dropLast_cons_of_ne_nil (by simp), List.dropLast_cons_of_ne_nil (by simp)] at hprefix
  simp only [List.cons_prefix_cons, true_and] at hprefix
  have hsame : strtokAll masterBlanks (p ++ qs.flatten) = strtokAll masterBlanks p := by
    rw [hw, hw', hprefix.1, hprefix.2.1]
  have hbytes := congrArg List.flatten hsame
  rw [flatten_strtokAll, flatten_strtokAll, List.filter_append, List.append_right_eq_self] at hbytes
  intro c hc
  simpa using List.filter_eq_nil_iff.1 hbytes c hc

end

theorem entsOf_congr {lines' : List Bytes} (h : List.Forall₂ SameEnt lines lines') :
    EntsOf before i lines ents ↔ EntsOf before i lines' ents := by
  induction h generalizing i ents with
  | nil => rfl
  | cons hsame hrest ih =>
    cases ents with
    | nil => exact iff_of_false (fun h => by cases h.length_eq) fun h => by cases h.length_eq
    | cons ent ents => rw [entsOf_cons, entsOf_cons, hsame, ih]

/-- The entries of lines that are well formed. -/
theorem exists_entsOf (h : ∀ line ∈ lines, ∃ before ent, lineEnt before line = .ok ent) :
    ∃ ents, EntsOf before i lines ents := by
  induction lines generalizing i with
  | nil => exact ⟨[], entsOf_nil.2 rfl⟩
  | cons line lines ih =>
    obtain ⟨ents, hents⟩ := ih (i := i + 1) fun l hl => h l (List.mem_cons_of_mem _ hl)
    obtain ⟨b, ent, hent⟩ := h line List.mem_cons_self
    have hok : ∃ ent, lineEnt (before i) line = .ok ent := by
      rw [lineEnt_eq] at hent ⊢
      split at hent
      · cases hent
      · exact ⟨_, entOfTokens_condwake hent _ _⟩
    obtain ⟨ent', hent'⟩ := hok
    exact ⟨ent' :: ents, entsOf_cons.2 ⟨hent', hents⟩⟩

/-- Lines that fit give their own entries. -/
theorem forall₂_linePieces_lines (h0 : ∀ line ∈ lines, 0 ∉ line)
    (hfits : ∀ line ∈ lines, LineFits line) :
    List.Forall₂ SameEnt ((lines.flatMap linePieces).filter isEntry) (lines.filter isEntry) := by
  induction lines with
  | nil => exact .nil
  | cons line lines ih =>
    have ih := ih (fun l hl => h0 l (List.mem_cons_of_mem _ hl))
      fun l hl => hfits l (List.mem_cons_of_mem _ hl)
    have hfit := hfits line List.mem_cons_self
    rw [List.flatMap_cons, List.filter_append]
    by_cases hline : isEntry line
    · obtain ⟨ps, p, qs, hpieces, hps, hp⟩ := exists_piece hline
      have hqs := (lineFits_iff_of_piece hline hpieces hps hp).1 hfit
      have hqs' : qs.filter isEntry = [] := List.filter_eq_nil_iff.2 fun q hq => by
        simp [not_isEntry_of_blank (blank_flatten.1 hqs q hq)]
      have hflat : line = ps.flatten ++ p ++ qs.flatten := by
        rw [← flatten_linePieces line, hpieces, List.flatten_append, List.flatten_cons,
          List.append_assoc]
      have hsame := sameEnt_of_blank (blank_flatten.2 hps) hqs hp
        (hflat ▸ h0 line List.mem_cons_self)
      rw [filter_linePieces_of_piece hpieces hps hp, hqs', List.filter_cons_of_pos hline,
        List.singleton_append]
      refine .cons (fun b => ?_) ih
      rw [← hsame b, ← hflat]
    · rw [LineFits, if_neg hline] at hfit
      rw [List.filter_cons_of_neg hline, List.filter_eq_nil_iff.2 fun p hp => by simp [hfit p hp],
        List.nil_append]
      exact ih

theorem length_filter_linePieces (lines : List Bytes) :
    (lines.filter isEntry).length ≤ ((lines.flatMap linePieces).filter isEntry).length := by
  induction lines with
  | nil => exact le_refl 0
  | cons line lines ih =>
    rw [List.flatMap_cons, List.filter_append, List.length_append]
    by_cases hline : isEntry line
    · obtain ⟨ps, p, qs, hpieces, hps, hp⟩ := exists_piece hline
      rw [filter_linePieces_of_piece hpieces hps hp, List.filter_cons_of_pos hline,
        List.length_cons, List.length_cons]
      omega
    · rw [List.filter_cons_of_neg hline]
      omega

/-- Where the pieces give the entries of the lines, the lines fit. -/
theorem lineFits_of_entsOf (hents : EntsOf before i (lines.filter isEntry) ents)
    (hpieces : EntsOf before i ((lines.flatMap linePieces).filter isEntry) ents) :
    ∀ line ∈ lines, LineFits line := by
  induction lines generalizing i ents with
  | nil => exact fun _ h => absurd h (List.not_mem_nil)
  | cons line lines ih =>
    have hlen := hents.length_eq.trans hpieces.length_eq.symm
    have hle := length_filter_linePieces lines
    rw [List.flatMap_cons, List.filter_append] at hpieces hlen
    rw [List.length_append] at hlen
    by_cases hline : isEntry line
    · obtain ⟨ps, p, qs, heq, hps, hp⟩ := exists_piece hline
      rw [filter_linePieces_of_piece heq hps hp] at hpieces hlen
      rw [List.filter_cons_of_pos hline] at hents hlen
      rw [List.length_cons, List.length_cons] at hlen
      have hqs : qs.filter isEntry = [] := List.eq_nil_of_length_eq_zero (by omega)
      rw [hqs, List.singleton_append] at hpieces
      cases ents with
      | nil => cases hents.length_eq
      | cons ent ents =>
        obtain ⟨hent, hents⟩ := entsOf_cons.1 hents
        obtain ⟨hent', hpieces⟩ := entsOf_cons.1 hpieces
        refine List.forall_mem_cons.2 ⟨?_, ih hents hpieces⟩
        exact (lineFits_iff_of_piece hline heq hps hp).2 (blank_of_lineEnt_eq heq hps hent hent')
    · rw [List.filter_cons_of_neg hline] at hents hlen
      have hnil : (linePieces line).filter isEntry = [] := List.eq_nil_of_length_eq_zero (by omega)
      rw [hnil, List.nil_append] at hpieces
      refine List.forall_mem_cons.2 ⟨?_, ih hents hpieces⟩
      rw [LineFits, if_neg hline]
      exact fun p hp => by simpa using List.filter_eq_nil_iff.1 hnil p hp

end

theorem mem_of_mem_confLines {c : BitVec 8} {fp line : Bytes} (hline : line ∈ confLines fp)
    (hc : c ∈ line) : c ∈ fp := by
  induction hn : fp.length using Nat.strong_induction_on generalizing fp with
  | _ n ih =>
    subst hn
    obtain ⟨first, rest, tl, rfl, -, hfirst, hlines, hrest⟩ := exists_confLines fp
    rw [hlines first hfirst, List.mem_cons] at hline
    rcases hline with rfl | hline
    · exact List.mem_append_left _ hc
    · rcases hrest with ⟨rfl, rfl⟩ | ⟨fp', rfl, rfl⟩
      · cases hline
      · exact List.mem_append_right _ (List.mem_cons_of_mem _
          (ih fp'.length (by simp; omega) hline rfl))

theorem lineFits_of_length_le {line : Bytes} (h : line.length ≤ 1023) : LineFits line := by
  by_cases hline : isEntry line
  · have hne : line ≠ [] := by
      rintro rfl
      cases hline
    rw [LineFits, if_pos hline, linePieces_of_ne_nil hne, List.drop_of_length_le h, linePieces_nil]
    exact List.length_filter_le _ _
  · have hnil := filter_linePieces h
    rw [List.filter_cons_of_neg hline] at hnil
    rw [LineFits, if_neg hline]
    exact fun p hp => by simpa using List.filter_eq_nil_iff.1 hnil p hp

/-- The calls return the entries of the pieces that look like one. -/
theorem readsEnts_iff_linePieces {before : ℕ → BitVec 8 × BitVec 8} {fp : Bytes} (h0 : 0 ∉ fp)
    {ents : List EntLine} : ReadsEnts before 0 fp ents ↔
      EntsOf before 0 (((confLines fp).flatMap linePieces).filter isEntry) ents :=
  readsEnts_iff.trans (entsOf_congr (forall₂_bufs_linePieces h0))

/-- Entries correspond to lines if and only if each line fits. -/
theorem entries_correspond_iff {fp : Bytes} (h0 : 0 ∉ fp)
    (hwf : ∀ line ∈ entryLines fp, ∃ before ent, lineEnt before line = .ok ent)
    (before : ℕ → BitVec 8 × BitVec 8) :
    Corresponds before fp ↔ ∀ line ∈ confLines fp, LineFits line := by
  constructor
  · rintro ⟨ents, hreads, hents⟩
    exact lineFits_of_entsOf hents ((readsEnts_iff_linePieces h0).1 hreads)
  · intro hfits
    have hents : ∃ ents, EntsOf before 0 (entryLines fp) ents := exists_entsOf hwf
    obtain ⟨ents, hents⟩ := hents
    have hsame := forall₂_linePieces_lines
      (fun line hl hm => h0 (mem_of_mem_confLines hl hm)) hfits
    exact ⟨ents, (readsEnts_iff_linePieces h0).2 ((entsOf_congr hsame).2 hents), hents⟩

/-- A file with a comment and an entry on short lines. -/
theorem entries_correspond_iff_smtp :
    Corresponds (fun _ => (0, 0)) (cstr "# services\nsmtp inet 0 1 smtpd\n") := by
  have hlines : confLines (cstr "# services\nsmtp inet 0 1 smtpd\n") =
      [cstr "# services", cstr "smtp inet 0 1 smtpd", []] := by decide
  refine (entries_correspond_iff (by decide) (fun line hline => ?_) _).2 fun line hline => ?_
  · have hentry : entryLines (cstr "# services\nsmtp inet 0 1 smtpd\n") =
        [cstr "smtp inet 0 1 smtpd"] := by decide
    rw [hentry, List.mem_singleton] at hline
    have hok : (lineEnt (0, 0) (cstr "smtp inet 0 1 smtpd")).toOption.isSome := by decide +kernel
    obtain ⟨ent, hent⟩ := Option.isSome_iff_exists.1 hok
    exact ⟨(0, 0), ent, hline ▸ toOption_eq_some hent⟩
  · rw [hlines] at hline
    have hlen : ∀ l ∈ [cstr "# services", cstr "smtp inet 0 1 smtpd", []], l.length ≤ 1023 := by
      decide
    exact lineFits_of_length_le (hlen line hline)

/-- The end of a comment is taken for an entry where it follows 1023 bytes of the line. -/
theorem not_entries_correspond : ∃ fp : Bytes, 0 ∉ fp ∧ entryLines fp = [] ∧
    ∀ before, ¬Corresponds before fp := by
  let line := List.replicate 1023 (BitVec.ofNat 8 '#'.toNat) ++ cstr "smtp inet 0 1 smtpd"
  have hnl : newline ∉ line := by decide +kernel
  have hlines : confLines (line ++ [newline]) = [line, []] :=
    List.splitOn_append_cons_self_of_not_mem hnl []
  have hcomment : isEntry line = false := by decide +kernel
  have h0 : 0 ∉ line ++ [newline] := by decide +kernel
  refine ⟨line ++ [newline], h0, ?_, fun before => ?_⟩
  · rw [entryLines, hlines, List.filter_cons_of_neg (by simp [hcomment])]
    rfl
  · rintro ⟨ents, hreads, hents⟩
    have hfits := lineFits_of_entsOf hents ((readsEnts_iff_linePieces h0).1 hreads) line
      (by rw [hlines]; exact List.mem_cons_self)
    rw [LineFits, if_neg (by simp [hcomment])] at hfits
    have hpiece : cstr "smtp inet 0 1 smtpd" ∈ linePieces line :=
      mem_linePieces_append List.length_replicate (by decide) (by decide)
    exact absurd (hfits _ hpiece) (by decide)

end Nowra
