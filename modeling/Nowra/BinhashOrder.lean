import Nowra.BinhashMem

/-!
# Keys that are entered more than once

`binhash_enter` does not look for its key, so a table can have several entries with one key. They
sit in one chain (`entriesOf`), where `binhash_locate` finds the first of them and
`binhash_delete` takes it away.

As long as the table does not grow, the entries of a key are a stack : `binhash_enter` puts one on
top, and `binhash_delete` takes the top away (`BinhashMem.Entries.path`). `binhash_grow` goes
through each chain from its head, and puts every entry at the head of its new chain. So the entries
of a key come out in reverse order (`BinhashMem.Entries.grow`) : the entry that is located after the
table has grown is the last one before, which is the same if and only if there are no two of them
(`binhashLocate_grow`).
-/

namespace Nowra

variable {α : Type}

/-- The entries with a key, in the order of their chain. -/
def entriesOf (t : Binhash α) (key : List (BitVec 8)) : List (BinhashInfo α) :=
  (t.data.getD (binhashHash key t.size) []).filter (·.key = key)

/-! ## The order of the entries -/

theorem binhashFirst_eq_head? (t : Binhash α) (key : List (BitVec 8)) :
    binhashFirst t key = (entriesOf t key).head? :=
  List.head?_filter.symm

/-- What is only in one of the lists is in the list of all of them as it is there. -/
theorem filter_flatten {γ : Type} (p : γ → Bool) {cs : List (List γ)} {i : ℕ}
    (h : ∀ j, j ≠ i → ∀ x ∈ cs.getD j [], ¬p x) :
    cs.flatten.filter p = (cs.getD i []).filter p := by
  induction cs generalizing i with
  | nil => simp
  | cons c cs ih =>
    rw [List.flatten_cons, List.filter_append]
    obtain _ | i := i
    · have hrest : cs.flatten.filter p = [] := by
        refine List.filter_eq_nil_iff.2 fun x hx => ?_
        obtain ⟨c', hc', hx⟩ := List.mem_flatten.1 hx
        obtain ⟨j, hj, rfl⟩ := List.getElem_of_mem hc'
        exact h (j + 1) (Nat.succ_ne_zero j) x (by simpa [hj] using hx)
      rw [hrest, List.append_nil]
      rfl
    · have hc : c.filter p = [] :=
        List.filter_eq_nil_iff.2 fun x hx => h 0 (Nat.succ_ne_zero i).symm x hx
      have hcs := ih (i := i) fun j hj x hx => h (j + 1) (fun heq => hj (Nat.succ.inj heq)) x hx
      rw [hc, List.nil_append, hcs]
      rfl

/-- The entries with a key are in the chain of the key. -/
theorem Binhash.Wf.filter_flatten {t : Binhash α} (h : t.Wf) (key : List (BitVec 8)) :
    t.data.flatten.filter (·.key = key) = entriesOf t key := by
  refine Nowra.filter_flatten _ fun j hj e he hkey => hj ?_
  obtain rfl : e.key = key := of_decide_eq_true hkey
  exact (h.placed j e he).symm

/-- An entry that is linked comes first among those with its key. -/
theorem entriesOf_link {t : Binhash α} (h : t.Wf) (e : BinhashInfo α) (key : List (BitVec 8)) :
    entriesOf (binhashLink t e) key = if e.key = key then e :: entriesOf t key
      else entriesOf t key := by
  unfold entriesOf binhashLink
  rw [Binhash.getD_modify _ _ _ _ (Binhash.hash_lt h e.key)]
  by_cases hkey : e.key = key
  · rw [if_pos hkey, if_pos (congrArg (binhashHash · t.size) hkey.symm)]
    exact List.filter_cons_of_pos (decide_eq_true hkey)
  · rw [if_neg hkey]
    split
    · exact List.filter_cons_of_neg (by simpa using hkey)
    · rfl

/-- Entries that are linked one after the other come out in reverse order. -/
theorem entriesOf_foldl_link {l : List (BinhashInfo α)} (key : List (BitVec 8)) :
    ∀ {t : Binhash α}, t.Wf → entriesOf (l.foldl binhashLink t) key =
      (l.filter (·.key = key)).reverse ++ entriesOf t key := by
  induction l with
  | nil => exact fun _ => rfl
  | cons e l ih =>
    intro t h
    rw [List.foldl_cons, ih (h.link e), entriesOf_link h]
    by_cases hkey : e.key = key
    · rw [if_pos hkey, List.filter_cons_of_pos (by simpa using hkey), List.reverse_cons,
        List.append_assoc, List.singleton_append]
    · rw [if_neg hkey, List.filter_cons_of_neg (by simpa using hkey)]

/-- A table that grows reverses the order of the entries with a key. -/
theorem entriesOf_grow {t : Binhash α} (h : t.Wf) (key : List (BitVec 8)) :
    entriesOf (binhashGrow t) key = (entriesOf t key).reverse := by
  have hempty : entriesOf (binhashSize α (2 * t.size)) key = [] := by
    refine List.filter_eq_nil_iff.2 fun e he => ?_
    have hmem := (BinhashMem.getD_sublist _ _).subset he
    simp [binhashSize] at hmem
  unfold binhashGrow
  rw [entriesOf_foldl_link key (Binhash.wf_binhashSize α _), h.filter_flatten, hempty,
    List.append_nil]

/-- A key is entered in front of its entries, after they were reversed if the table grows. -/
theorem entriesOf_enter {t : Binhash α} (h : t.Wf) (key key' : List (BitVec 8)) (value : α) :
    entriesOf (binhashEnter t key' value) key = (if key' = key then [⟨key', value⟩] else []) ++
      if t.used ≥ t.size then (entriesOf t key).reverse else entriesOf t key := by
  unfold binhashEnter
  split
  · rw [entriesOf_link Binhash.Wf.grow.1, entriesOf_grow h]
    split <;> rfl
  · rw [entriesOf_link h]
    split <;> rfl

theorem filter_eraseP {γ : Type} (p : γ → Bool) {l : List γ} {e : γ} (h : l.find? p = some e) :
    l.filter p = e :: (l.eraseP p).filter p := by
  induction l with
  | nil => cases h
  | cons x l ih =>
    by_cases hx : p x
    · rw [List.find?_cons_of_pos hx] at h
      obtain rfl := Option.some.inj h
      rw [List.filter_cons_of_pos hx, List.eraseP_cons_of_pos hx]
    · rw [List.find?_cons_of_neg hx] at h
      rw [List.filter_cons_of_neg hx, List.eraseP_cons_of_neg hx, List.filter_cons_of_neg hx, ih h]

/-- What is erased for one reason is not there for another. -/
theorem filter_eraseP_of_disjoint {γ : Type} {p q : γ → Bool} (h : ∀ x, p x → ¬q x) (l : List γ) :
    (l.eraseP p).filter q = l.filter q := by
  induction l with
  | nil => rfl
  | cons x l ih =>
    by_cases hx : p x
    · rw [List.eraseP_cons_of_pos hx, List.filter_cons_of_neg (h x hx)]
    · rw [List.eraseP_cons_of_neg hx, List.filter_cons, List.filter_cons, ih]

/-- A key that is deleted loses its first entry, and another key none. -/
theorem entriesOf_delete {t t' : Binhash α} (h : t.Wf) {key' : List (BitVec 8)}
    (hdel : binhashDelete (some t) key' = .ok (some t')) {e : BinhashInfo α}
    (he : binhashFirst t key' = some e) (key : List (BitVec 8)) :
    entriesOf t' key = if key' = key then (entriesOf t key).tail else entriesOf t key := by
  obtain ⟨-, -, -, -, t₁, hdel₁, hsize, -, hdata, -⟩ := binhashDelete_first h he
  obtain rfl := Option.some.inj (Except.ok.inj (hdel₁.symm.trans hdel))
  unfold entriesOf
  rw [hsize, hdata, Binhash.getD_modify _ _ _ _ (Binhash.hash_lt h key')]
  by_cases hkey : key' = key
  · subst hkey
    rw [if_pos rfl, if_pos rfl, filter_eraseP _ he]
    rfl
  · rw [if_neg hkey]
    split
    · refine filter_eraseP_of_disjoint (fun x hx hx' => hkey ?_) _
      exact (of_decide_eq_true hx).symm.trans (of_decide_eq_true hx')
    · rfl

/-! ## Tables with any keys -/

/-- A call that returns, with any key. -/
inductive BinhashMem.AnyStep (t : BinhashMem α) : BinhashLabel α → BinhashMem α → Prop
  | enter {key : List (BitVec 8)} {value : α} {elm turns : ℕ} {t' : BinhashMem α}
      (helm : t.info elm = none) (hturns : t.used ≤ turns)
      (h : binhashEnter turns t key value elm = .ok t') : AnyStep t (.enter key value elm) t'
  | delete {key : List (BitVec 8)} {turns : ℕ} {x : BinhashMem α × α} (hturns : t.used ≤ turns)
      (h : binhashDelete turns t key = .ok x) : AnyStep t (.delete key) x.1

/-- Any sequence of calls on a new table. -/
def anyKeySystem (α : Type) : LTS (BinhashMem α) (BinhashLabel α) where
  init t := ∃ size : ℤ, BinhashMem.binhashCreate α size = .ok t
  step := BinhashMem.AnyStep

namespace BinhashMem

/-- Make a call, with as many turns as there are entries. -/
def exec (t : BinhashMem α) : BinhashLabel α → Option (BinhashMem α)
  | .enter key value elm =>
    if (t.info elm).isNone then (binhashEnter t.used t key value elm).toOption else none
  | .delete key => (binhashDelete t.used t key).toOption.map Prod.fst

theorem step_of_exec (t : BinhashMem α) (a : BinhashLabel α) (t' : BinhashMem α)
    (h : t.exec a = some t') : (anyKeySystem α).step t a t' := by
  cases a with
  | enter key value elm =>
    simp only [exec] at h
    by_cases helm : (t.info elm).isNone
    · rw [if_pos helm] at h
      exact .enter (Option.isNone_iff_eq_none.1 helm) le_rfl (toOption_eq_some h)
    · rw [if_neg helm] at h
      cases h
  | delete key =>
    simp only [exec] at h
    obtain ⟨x, hx, rfl⟩ := Option.map_eq_some_iff.1 h
    exact .delete le_rfl (toOption_eq_some hx)

/-- The memory has the lists of a well-formed table. -/
structure Sound (t : BinhashMem α) : Prop where
  lists : ∃ b, t.Refines b ∧ b.Wf
  small : t.size < 2 ^ 28

variable {t t' : BinhashMem α} {b : Binhash (ℕ × α)}

/-- An array that is allocated is not too large. -/
theorem binhashSize_small {size : ℕ} (h : binhashSize t size = .ok t') : size ||| 1 < 2 ^ 28 := by
  unfold binhashSize at h
  simp only at h
  split at h
  · cases h
  · split at h
    · cases h
    · unfold intOf at *
      omega

theorem sound_init (h : (anyKeySystem α).init t) : t.Sound := by
  obtain ⟨size, hcreate⟩ := h
  unfold binhashCreate at hcreate
  generalize (if size < 13 then 13 else size.toNat) = n at hcreate
  have hsmall := binhashSize_small hcreate
  obtain rfl := Except.ok.inj ((binhashSize_eq hsmall).symm.trans hcreate)
  exact ⟨⟨_, refines_empty n _, Binhash.wf_binhashSize _ n⟩, hsmall⟩

/-- A table that grows does so as its lists do. -/
theorem Refines.of_grow (h : t.Refines b) (hwf : b.Wf) (hsize : t.size < 2 ^ 28) {turns : ℕ}
    (hturns : t.used ≤ turns) (hgrow : binhashGrow turns t = .ok t') :
    2 * t.size ||| 1 < 2 ^ 28 ∧ t'.Refines (Nowra.binhashGrow b) := by
  obtain ⟨t₁, hnew, -⟩ := bind_ok_iff.1 hgrow
  have hsmall := binhashSize_small hnew
  have hunsigned : unsignedOf (2 * t.size) = 2 * t.size := by
    unfold unsignedOf
    omega
  rw [hunsigned] at hsmall
  obtain ⟨t₂, hrun, href⟩ := h.grow hwf hsmall hturns
  exact ⟨hsmall, Except.ok.inj (hrun.symm.trans hgrow) ▸ href⟩

/-- A pair that is entered goes into the lists. -/
theorem Refines.of_enter (h : t.Refines b) (hwf : b.Wf) (hsize : t.size < 2 ^ 28)
    {key : List (BitVec 8)} {value : α} {elm turns : ℕ} (helm : t.info elm = none)
    (hturns : t.used ≤ turns) (henter : binhashEnter turns t key value elm = .ok t') :
    key ≠ [] ∧ (t.size ≤ t.used → 2 * t.size ||| 1 < 2 ^ 28) ∧
      t'.Refines (Nowra.binhashEnter b key (elm, value)) := by
  obtain ⟨t₁, hroom, hput⟩ := bind_ok_iff.1 henter
  have hkey : key ≠ [] := by
    rintro rfl
    cases hput
  have hsmall : t.size ≤ t.used → 2 * t.size ||| 1 < 2 ^ 28 := by
    intro hfull
    rw [if_pos hfull] at hroom
    exact (h.of_grow hwf hsize hturns hroom).1
  obtain ⟨t₂, hrun, href⟩ := h.enter hwf hkey value helm hsmall hturns
  exact ⟨hkey, hsmall, Except.ok.inj (hrun.symm.trans henter) ▸ href⟩

/-- A key is located at its first entry. -/
theorem Refines.locate (h : t.Refines b) (hwf : b.Wf) (key : List (BitVec 8)) {turns : ℕ}
    (hturns : t.used ≤ turns) : binhashLocate turns (some t) key =
      .ok ((entriesOf b key).map (·.value.1)).head? := by
  have hsearch := h.search hwf key hturns
  have hfirst : (Nowra.binhashFind (some b) key).map Prod.fst =
      ((entriesOf b key).map (·.value.1)).head? := by
    rw [List.head?_map, ← binhashFirst_eq_head?]
    exact Option.map_map ..
  rwa [hfirst] at hsearch

/-- A key that is deleted is there. -/
theorem Refines.of_delete (h : t.Refines b) (hwf : b.Wf) {key : List (BitVec 8)} {turns : ℕ}
    (hturns : t.used ≤ turns) {x : BinhashMem α × α} (hdel : binhashDelete turns t key = .ok x) :
    ∃ e, binhashFirst b key = some e := by
  obtain ⟨o, hsearch, hdel⟩ := bind_ok_iff.1 hdel
  have hsome := (h.search hwf key hturns).symm.trans hsearch
  cases hfirst : binhashFirst b key with
  | none =>
    have hnone : (Nowra.binhashFind (some b) key).map Prod.fst = none := by
      rw [show Nowra.binhashFind (some b) key = none from congrArg (Option.map _) hfirst]
      rfl
    obtain rfl : none = o := hnone.symm.trans (Except.ok.inj hsome)
    cases hdel
  | some e => exact ⟨e, rfl⟩

theorem Sound.step {a : BinhashLabel α} (h : t.Sound) (hst : (anyKeySystem α).step t a t') :
    t'.Sound := by
  obtain ⟨⟨b, href, hwf⟩, hsize⟩ := h
  cases hst with
  | @enter key value elm turns _ helm hturns henter =>
    obtain ⟨-, hsmall, href'⟩ := href.of_enter hwf hsize helm hturns henter
    refine ⟨⟨_, href', (binhashEnter_perm hwf key _).1⟩, ?_⟩
    rw [href'.size]
    unfold Nowra.binhashEnter
    rw [← href.used, ← href.size]
    split
    · rename_i hfull
      have hgrown : (Nowra.binhashGrow b).size = 2 * t.size ||| 1 := by
        rw [href.size]
        exact BinhashState.size_foldl_link
      exact hgrown.trans_lt (hsmall hfull)
    · exact href.size.symm.trans_lt hsize
  | @delete key turns x hturns hdel =>
    obtain ⟨e, he⟩ := href.of_delete hwf hturns hdel
    obtain ⟨t₁, b', hrun, -, href', hwf', hsize'⟩ := href.delete_first hwf he hturns
    obtain rfl := Except.ok.inj (hrun.symm.trans hdel)
    exact ⟨⟨b', href', hwf'⟩, by rwa [href'.size, hsize', ← href.size]⟩

theorem sound_of_reach (h : (anyKeySystem α).Reach t) : t.Sound :=
  h.invariant (fun _ => sound_init) fun _ _ _ hs hst => hs.step hst

end BinhashMem

theorem getLast?_eq_head?_iff {γ : Type} {l : List γ} (hnd : l.Nodup) :
    l.getLast? = l.head? ↔ l.length ≤ 1 := by
  obtain _ | ⟨x, l⟩ := l
  · simp
  obtain rfl | ⟨l, y, rfl⟩ := List.eq_nil_or_concat' l
  · simp
  · have hne : y ≠ x := fun heq => (List.nodup_cons.1 hnd).1 (by simp [heq])
    rw [← List.cons_append, List.getLast?_concat]
    simpa using hne

/-- The entries with a key have addresses of their own. -/
theorem BinhashMem.Refines.entries_nodup {t : BinhashMem α} {b : Binhash (ℕ × α)}
    (h : t.Refines b) (key : List (BitVec 8)) :
    ((entriesOf b key).map (·.value.1)).Nodup := by
  have hchain := (addrs_sublist b (binhashHash key b.size)).nodup h.nodup
  rw [addrs, List.map_map] at hchain
  exact (List.filter_sublist.map _).nodup hchain

namespace BinhashMem

/-- The addresses of the entries with a key, in the order of their chain. -/
def Entries (t : BinhashMem α) (key : List (BitVec 8)) (l : List ℕ) : Prop :=
  ∃ b : Binhash (ℕ × α), t.Refines b ∧ b.Wf ∧ (entriesOf b key).map (·.value.1) = l

/-- What a call does to the entries with a key, if the table does not grow. -/
def stack (key : List (BitVec 8)) (l : List ℕ) : BinhashLabel α → List ℕ
  | .enter key' _ elm => if key' = key then elm :: l else l
  | .delete key' => if key' = key then l.tail else l

namespace Entries

variable {t t' : BinhashMem α} {key : List (BitVec 8)} {l : List ℕ} {turns : ℕ}

theorem nodup (h : t.Entries key l) : l.Nodup := by
  obtain ⟨b, href, -, rfl⟩ := h
  exact href.entries_nodup key

/-- A key is located at the first of its entries. -/
theorem locate (h : t.Entries key l) (hturns : t.used ≤ turns) :
    binhashLocate turns (some t) key = .ok l.head? := by
  obtain ⟨b, href, hwf, rfl⟩ := h
  exact href.locate hwf key hturns

/-- A table that grows reverses the entries. -/
theorem grow (h : t.Entries key l) (hsize : t.size < 2 ^ 28) (hturns : t.used ≤ turns)
    (hgrow : binhashGrow turns t = .ok t') : t'.Entries key l.reverse ∧ t'.used = t.used := by
  obtain ⟨b, href, hwf, rfl⟩ := h
  have href' := (href.of_grow hwf hsize hturns hgrow).2
  refine ⟨⟨_, href', Binhash.Wf.grow.1, ?_⟩, ?_⟩
  · rw [entriesOf_grow hwf, List.map_reverse]
  · rw [href'.used, Binhash.Wf.grow.1.used, Binhash.Wf.grow.2.length_eq, ← hwf.used, href.used]

/-- A key is entered in front of its entries. -/
theorem enter (h : t.Entries key l) (hsize : t.size < 2 ^ 28) {key' : List (BitVec 8)} {value : α}
    {elm : ℕ} (helm : t.info elm = none) (hturns : t.used ≤ turns)
    (henter : binhashEnter turns t key' value elm = .ok t') :
    t'.Entries key (stack key (if t.size ≤ t.used then l.reverse else l)
      (.enter key' value elm)) ∧ t'.used = t.used + 1 := by
  obtain ⟨b, href, hwf, rfl⟩ := h
  have href' := (href.of_enter hwf hsize helm hturns henter).2.2
  obtain ⟨hwf', hperm⟩ := binhashEnter_perm hwf key' (elm, value)
  refine ⟨⟨_, href', hwf', ?_⟩, ?_⟩
  · rw [entriesOf_enter hwf, ← href.used, ← href.size, List.map_append]
    have hold : (if t.used ≥ t.size then (entriesOf b key).reverse else entriesOf b key).map
        (·.value.1) = if t.size ≤ t.used then ((entriesOf b key).map (·.value.1)).reverse
          else (entriesOf b key).map (·.value.1) := by
      split
      · rw [List.map_reverse]
      · rfl
    rw [hold, stack]
    split <;> rfl
  · rw [href'.used, hwf'.used, hperm.length_eq, List.length_cons, ← hwf.used, href.used]

/-- A key that is deleted loses the first of its entries. -/
theorem delete (h : t.Entries key l) (hturns : t.used ≤ turns) {key' : List (BitVec 8)}
    {x : BinhashMem α × α} (hdel : binhashDelete turns t key' = .ok x) :
    x.1.Entries key (stack key l (.delete (α := α) key')) ∧ x.1.used ≤ t.used := by
  obtain ⟨b, href, hwf, rfl⟩ := h
  obtain ⟨e, he⟩ := href.of_delete hwf hturns hdel
  obtain ⟨t', b', hrun, hlist, href', hwf', -⟩ := href.delete_first hwf he hturns
  obtain rfl := Except.ok.inj (hrun.symm.trans hdel)
  obtain ⟨-, -, -, -, b₁, hlist₁, -, hused, -⟩ := binhashDelete_first hwf he
  obtain rfl := Option.some.inj (Except.ok.inj (hlist₁.symm.trans hlist))
  refine ⟨⟨b₁, href', hwf', ?_⟩, ?_⟩
  · rw [entriesOf_delete hwf hlist he, stack]
    split
    · rw [List.map_tail]
    · rfl
  · rw [href'.used, hused, href.used]
    omega

/-- A table grows unless the array gets too large. -/
theorem grows_iff (h : t.Entries key l) (hsize : t.size < 2 ^ 28) (hturns : t.used ≤ turns) :
    (∃ t', binhashGrow turns t = .ok t') ↔ 2 * t.size ||| 1 < 2 ^ 28 := by
  obtain ⟨b, href, hwf, -⟩ := h
  constructor
  · rintro ⟨t', hgrow⟩
    exact (href.of_grow hwf hsize hturns hgrow).1
  · intro hsmall
    obtain ⟨t', hgrow, -⟩ := href.grow hwf hsmall hturns
    exact ⟨t', hgrow⟩

/-- A key is entered unless it is empty or the table is full and cannot grow. -/
theorem enters_iff (h : t.Entries key l) (hsize : t.size < 2 ^ 28) {key' : List (BitVec 8)}
    {value : α} {elm : ℕ} (helm : t.info elm = none) (hturns : t.used ≤ turns) :
    (∃ t', binhashEnter turns t key' value elm = .ok t') ↔
      key' ≠ [] ∧ (t.size ≤ t.used → 2 * t.size ||| 1 < 2 ^ 28) := by
  obtain ⟨b, href, hwf, -⟩ := h
  constructor
  · rintro ⟨t', henter⟩
    obtain ⟨hkey, hsmall, -⟩ := href.of_enter hwf hsize helm hturns henter
    exact ⟨hkey, hsmall⟩
  · rintro ⟨hkey, hsmall⟩
    obtain ⟨t', henter, -⟩ := href.enter hwf hkey value helm hsmall hturns
    exact ⟨t', henter⟩

/-- A key is deleted if it has an entry. -/
theorem deletes_iff (h : t.Entries key l) (hturns : t.used ≤ turns) :
    (∃ x, binhashDelete turns t key = .ok x) ↔ l ≠ [] := by
  obtain ⟨b, href, hwf, rfl⟩ := h
  have hfirst := binhashFirst_eq_head? b key
  constructor
  · rintro ⟨x, hdel⟩ hnil
    obtain ⟨e, he⟩ := href.of_delete hwf hturns hdel
    rw [hfirst, List.map_eq_nil_iff.1 hnil] at he
    cases he
  · intro hne
    obtain ⟨e, rest, hcons⟩ := List.exists_cons_of_ne_nil (mt List.map_eq_nil_iff.2 hne)
    rw [hcons] at hfirst
    obtain ⟨t', b', hdel, -⟩ := href.delete_first hwf hfirst hturns
    exact ⟨_, hdel⟩

/-- The calls of a path in which the table does not grow. -/
theorem path (h : t.Entries key l) (ht : (anyKeySystem α).Reach t)
    {tr : List (BinhashMem α × BinhashLabel α × BinhashMem α)}
    (hp : (anyKeySystem α).Path t tr t')
    (hroom : ∀ m ∈ tr, ∀ key' value elm, m.2.1 = .enter key' value elm → m.1.used < m.1.size) :
    t'.Entries key ((tr.map (·.2.1)).foldl (stack key) l) := by
  obtain ⟨tr₀, s, hs, hp₀⟩ := ht
  induction hp with
  | nil => exact h
  | @snoc tr u u' a hp hst ih =>
    have hu := ih fun m hm => hroom m (List.mem_append_left _ hm)
    have hsize : u.size < 2 ^ 28 := (sound_of_reach ⟨_, s, hs, hp₀.trans hp⟩).small
    have hlast := hroom _ (List.mem_append_right _ (List.mem_singleton_self _))
    rw [List.map_append, List.foldl_append]
    cases hst with
    | enter helm hturns henter =>
      have hnext := (hu.enter hsize helm hturns henter).1
      rwa [if_neg (not_le.2 (hlast _ _ _ rfl))] at hnext
    | delete hturns hdel => exact (hu.delete hturns hdel).1

end Entries

end BinhashMem

/-- In every table that any calls lead to, a key is located at the first of its entries. A table
that grows reverses them, so that the key is located at what was the last of them, which is the same
entry if and only if there are no two. A key is entered in front of its entries, which are reversed
if the table grows, and deleting it takes the first of them away. Other keys keep their entries, in
reverse order if the table grows. So as long as the table does not grow, the entries of a key are
its stack. The calls return, unless the array gets too large, the key that is entered is empty or
the one that is deleted is absent. -/
theorem binhashLocate_grow {t : BinhashMem α} (h : (anyKeySystem α).Reach t)
    {key : List (BitVec 8)} {turns : ℕ} (hturns : t.used ≤ turns) :
    ∃ l, t.Entries key l ∧ BinhashMem.binhashLocate turns (some t) key = .ok l.head? ∧
      ((∃ t', BinhashMem.binhashGrow turns t = .ok t') ↔ 2 * t.size ||| 1 < 2 ^ 28) ∧
      (∀ key' value elm, t.info elm = none →
        ((∃ t', BinhashMem.binhashEnter turns t key' value elm = .ok t') ↔
          key' ≠ [] ∧ (t.size ≤ t.used → 2 * t.size ||| 1 < 2 ^ 28))) ∧
      ((∃ x, BinhashMem.binhashDelete turns t key = .ok x) ↔ l ≠ []) ∧
      (∀ t', BinhashMem.binhashGrow turns t = .ok t' → t'.Entries key l.reverse ∧
        BinhashMem.binhashLocate turns (some t') key = .ok l.getLast? ∧
        (BinhashMem.binhashLocate turns (some t') key =
          BinhashMem.binhashLocate turns (some t) key ↔ l.length ≤ 1)) ∧
      (∀ key' value elm t', t.info elm = none →
        BinhashMem.binhashEnter turns t key' value elm = .ok t' →
        t'.Entries key (BinhashMem.stack key (if t.size ≤ t.used then l.reverse else l)
          (.enter key' value elm)) ∧
        (key' ≠ key → BinhashMem.binhashLocate (turns + 1) (some t') key =
          .ok (if t.size ≤ t.used then l.getLast? else l.head?))) ∧
      (∀ key' x, BinhashMem.binhashDelete turns t key' = .ok x →
        x.1.Entries key (if key' = key then l.tail else l) ∧
        BinhashMem.binhashLocate turns (some x.1) key =
          .ok (if key' = key then l.tail.head? else l.head?)) ∧
      ∀ tr t', (anyKeySystem α).Path t tr t' →
        (∀ m ∈ tr, ∀ key' value elm, m.2.1 = .enter key' value elm → m.1.used < m.1.size) →
        t'.Entries key ((tr.map (·.2.1)).foldl (BinhashMem.stack key) l) := by
  obtain ⟨⟨b, href, hwf⟩, hsize⟩ := BinhashMem.sound_of_reach h
  have hentries : t.Entries key _ := ⟨b, href, hwf, rfl⟩
  have hlocate := hentries.locate hturns
  refine ⟨_, hentries, hlocate, hentries.grows_iff hsize hturns,
    fun key' value elm helm => hentries.enters_iff hsize helm hturns, hentries.deletes_iff hturns,
    fun t' hgrow => ?_, fun key' value elm t' helm henter => ?_,
    fun key' x hdel => ?_, fun tr t' hp hroom => hentries.path h hp hroom⟩
  · obtain ⟨hentries', hused⟩ := hentries.grow hsize hturns hgrow
    have hlocate' := hentries'.locate (hused.trans_le hturns)
    rw [List.head?_reverse] at hlocate'
    refine ⟨hentries', hlocate', ?_⟩
    rw [hlocate', hlocate, ← getLast?_eq_head?_iff hentries.nodup]
    exact ⟨Except.ok.inj, congrArg _⟩
  · obtain ⟨hentries', hused⟩ := hentries.enter hsize helm hturns henter
    refine ⟨hentries', fun hne => ?_⟩
    have hlocate' := hentries'.locate (hused.trans_le (Nat.succ_le_succ hturns))
    rw [hlocate', BinhashMem.stack, if_neg hne]
    split
    · rw [List.head?_reverse]
    · rfl
  · obtain ⟨hentries', hused⟩ := hentries.delete hturns hdel
    refine ⟨hentries', ?_⟩
    rw [hentries'.locate (hused.trans hturns), BinhashMem.stack]
    split <;> rfl

/-- Thirteen entries with one key fill a new table. -/
theorem exists_full : ∃ t : BinhashMem ℕ, (anyKeySystem ℕ).Reach t ∧ t.used ≤ 13 ∧
    ∃ t', BinhashMem.binhashGrow 13 t = .ok t' ∧
      BinhashMem.binhashLocate 13 (some t) [97] = .ok (some 12) ∧
      BinhashMem.binhashLocate 13 (some t') [97] = .ok (some 0) := by
  have hrun : ((BinhashMem.binhashCreate ℕ 0).toOption.any fun t₀ =>
      (((List.range 13).map fun i => BinhashLabel.enter [97] i i).foldlM BinhashMem.exec t₀).any
        fun t => (BinhashMem.binhashGrow 13 t).toOption.any fun t' => t.used ≤ 13 ∧
          (BinhashMem.binhashLocate 13 (some t) [97]).toOption = some (some 12) ∧
          (BinhashMem.binhashLocate 13 (some t') [97]).toOption = some (some 0)) = true := by
    decide +kernel
  obtain ⟨t₀, hcreate, hrun⟩ := (Option.any_eq_true _ _).1 hrun
  obtain ⟨t, hfold, hrun⟩ := (Option.any_eq_true _ _).1 hrun
  obtain ⟨t', hgrow, hobs⟩ := (Option.any_eq_true _ _).1 hrun
  obtain ⟨hused, hbefore, hafter⟩ := of_decide_eq_true hobs
  obtain ⟨tr, hpath, -⟩ := LTS.Path.of_foldlM BinhashMem.step_of_exec hfold
  exact ⟨t, ⟨tr, t₀, ⟨0, toOption_eq_some hcreate⟩, hpath⟩, hused, t', toOption_eq_some hgrow,
    toOption_eq_some hbefore, toOption_eq_some hafter⟩

/-- The thirteen entries, first to last, and in reverse order when the table has grown. -/
theorem binhashLocate_grow_full : ∃ t t' : BinhashMem ℕ, (anyKeySystem ℕ).Reach t ∧
    BinhashMem.binhashGrow 13 t = .ok t' ∧ ∃ l, t.Entries [97] l ∧ t'.Entries [97] l.reverse ∧
      l.head? = some 12 ∧ l.getLast? = some 0 := by
  obtain ⟨t, h, hused, t', hgrow, hbefore, hafter⟩ := exists_full
  obtain ⟨l, hentries, hfirst, -, -, -, hlast, -⟩ := @binhashLocate_grow _ _ h [97] _ hused
  obtain ⟨hentries', hlast, -⟩ := hlast t' hgrow
  exact ⟨t, t', h, hgrow, l, hentries, hentries', Except.ok.inj (hfirst.symm.trans hbefore),
    Except.ok.inj (hlast.symm.trans hafter)⟩

/-- Before the full table grows the key is located at the entry that was entered last, and after
that at the one that was entered first. -/
theorem not_binhashLocate_grow : ¬∀ t : BinhashMem ℕ, (anyKeySystem ℕ).Reach t →
    ∀ (key : List (BitVec 8)) (turns : ℕ) (t' : BinhashMem ℕ), key ≠ [] → t.used ≤ turns →
      BinhashMem.binhashGrow turns t = .ok t' →
      BinhashMem.binhashLocate turns (some t') key =
        BinhashMem.binhashLocate turns (some t) key := by
  intro hsame
  obtain ⟨t, h, hused, t', hgrow, hbefore, hafter⟩ := exists_full
  have heq := hsame t h [97] 13 t' (by decide) hused hgrow
  rw [hbefore, hafter] at heq
  cases heq

end Nowra
