import Mathlib.Data.List.Basic

/-!
# Labelled transition systems and their runs

A system is a predicate on initial states and a labelled step relation (`LTS`). A path is
the list of its moves, each with the state before and the state after (`LTS.Path`), so that
a property of every state passed and a property of every step taken are both properties of
the list. A run is a path from an initial state.

`LTS.Path.invariant` is the induction rule for a path. `LTS.Path.invariant_of` is the rule
under a condition on the steps : what each conforming step keeps, a conforming path keeps.
`LTS.Run.forall_iff` is its exact form. When a state property survives a step if and only if
the step conforms, it holds all along a run if and only if every step of the run conforms.
-/

namespace Nowra

/-- A labelled transition system. -/
structure LTS (σ α : Type*) where
  init : σ → Prop
  step : σ → α → σ → Prop

namespace LTS

variable {σ α : Type*} (S : LTS σ α)

/-- `S.Path s tr t` : the moves `tr`, each a step of `S`, lead from `s` to `t`. -/
inductive Path (s : σ) : List (σ × α × σ) → σ → Prop
  | nil : Path s [] s
  | snoc {tr : List (σ × α × σ)} {t u : σ} {a : α} :
      Path s tr t → S.step t a u → Path s (tr ++ [(t, a, u)]) u

/-- The moves `tr` lead from some initial state to `t`. -/
def Run (tr : List (σ × α × σ)) (t : σ) : Prop :=
  ∃ s, S.init s ∧ S.Path s tr t

/-- Some run ends in `s`. -/
def Reach (s : σ) : Prop :=
  ∃ tr, S.Run tr s

variable {S}

theorem Path.single {s t : σ} {a : α} (h : S.step s a t) : S.Path s [(s, a, t)] t :=
  Path.nil.snoc h

theorem Path.trans {s t u : σ} {tr tr' : List (σ × α × σ)} (h : S.Path s tr t)
    (h' : S.Path t tr' u) : S.Path s (tr ++ tr') u := by
  induction h' with
  | nil => simpa using h
  | snoc _ hst ih => simpa [List.append_assoc] using ih.snoc hst

theorem Path.cons {s t u : σ} {a : α} {tr : List (σ × α × σ)} (h : S.step s a t)
    (h' : S.Path t tr u) : S.Path s ((s, a, t) :: tr) u :=
  (Path.single h).trans h'

theorem Run.append {s t : σ} {tr tr' : List (σ × α × σ)} (h : S.Run tr s) (h' : S.Path s tr' t) :
    S.Run (tr ++ tr') t := by
  obtain ⟨s₀, hinit, hp⟩ := h
  exact ⟨s₀, hinit, hp.trans h'⟩

theorem Reach.trans {s t : σ} {tr : List (σ × α × σ)} (h : S.Reach s) (h' : S.Path s tr t) :
    S.Reach t := by
  obtain ⟨tr₀, hrun⟩ := h
  exact ⟨_, hrun.append h'⟩

/-- Every move of a path is a step of the system. -/
theorem Path.step_of_mem {s t : σ} {tr : List (σ × α × σ)} (h : S.Path s tr t)
    {m : σ × α × σ} (hm : m ∈ tr) : S.step m.1 m.2.1 m.2.2 := by
  induction h with
  | nil => simp at hm
  | snoc _ hst ih =>
    rcases List.mem_append.1 hm with hm | hm
    · exact ih hm
    · obtain rfl := List.mem_singleton.1 hm
      exact hst

/-- A path is cut at a move. -/
theorem Path.of_append_cons {s t : σ} {tr pre post : List (σ × α × σ)} {m : σ × α × σ}
    (h : S.Path s tr t) (htr : tr = pre ++ m :: post) :
    S.Path s pre m.1 ∧ S.step m.1 m.2.1 m.2.2 ∧ S.Path m.2.2 post t := by
  induction h generalizing post with
  | nil => simp at htr
  | snoc hp hst ih =>
    rcases List.eq_nil_or_concat post with rfl | ⟨post, y, rfl⟩
    · obtain ⟨rfl, hm⟩ := List.append_inj' htr rfl
      obtain rfl := List.singleton_inj.1 hm
      exact ⟨hp, hst, .nil⟩
    · rw [List.concat_eq_append, ← List.cons_append, ← List.append_assoc] at htr
      obtain ⟨htr, hy⟩ := List.append_inj' htr rfl
      obtain ⟨hpre, hm, hpost⟩ := ih htr
      rw [List.concat_eq_append, ← hy]
      exact ⟨hpre, hm, hpost.snoc hst⟩

/-- What conforming steps keep holds before and after every move of a conforming path. -/
theorem Path.invariant_of {P : σ → Prop} {C : σ → α → Prop} {s t : σ}
    {tr : List (σ × α × σ)} (h : S.Path s tr t) (hs : P s)
    (hstep : ∀ t a u, P t → C t a → S.step t a u → P u)
    (hC : ∀ m ∈ tr, C m.1 m.2.1) : P t ∧ ∀ m ∈ tr, P m.1 ∧ P m.2.2 := by
  induction h with
  | nil => exact ⟨hs, by simp⟩
  | @snoc tr t u a _ hst ih =>
    obtain ⟨ht, hall⟩ := ih fun m hm => hC m (List.mem_append_left _ hm)
    have hu : P u := hstep t a u ht (hC (t, a, u) (by simp)) hst
    refine ⟨hu, fun m hm => ?_⟩
    rcases List.mem_append.1 hm with hm | hm
    · exact hall m hm
    · obtain rfl := List.mem_singleton.1 hm
      exact ⟨ht, hu⟩

/-- A path of a system is a path of any system with its steps. -/
theorem Path.mono {S' : LTS σ α} {s t : σ} {tr : List (σ × α × σ)} (h : S.Path s tr t)
    (hstep : ∀ t a u, S.step t a u → S'.step t a u) : S'.Path s tr t := by
  induction h with
  | nil => exact .nil
  | snoc _ hst ih => exact ih.snoc (hstep _ _ _ hst)

/-- The induction rule of a path. -/
theorem Path.invariant {P : σ → Prop} {s t : σ} {tr : List (σ × α × σ)} (h : S.Path s tr t)
    (hs : P s) (hstep : ∀ t a u, P t → S.step t a u → P u) :
    P t ∧ ∀ m ∈ tr, P m.1 ∧ P m.2.2 :=
  h.invariant_of (C := fun _ _ => True) hs (fun t a u ht _ => hstep t a u ht) fun _ _ => trivial

theorem Run.invariant {P : σ → Prop} {t : σ} {tr : List (σ × α × σ)} (h : S.Run tr t)
    (hinit : ∀ s, S.init s → P s) (hstep : ∀ t a u, P t → S.step t a u → P u) :
    P t ∧ ∀ m ∈ tr, P m.1 ∧ P m.2.2 := by
  obtain ⟨s, hs, hp⟩ := h
  exact hp.invariant (hinit s hs) hstep

theorem Reach.invariant {P : σ → Prop} {t : σ} (h : S.Reach t)
    (hinit : ∀ s, S.init s → P s) (hstep : ∀ t a u, P t → S.step t a u → P u) : P t := by
  obtain ⟨tr, htr⟩ := h
  exact (htr.invariant hinit hstep).1

/-- A list of labels that a step function runs through is a path. -/
theorem Path.of_foldlM {f : σ → α → Option σ} (hf : ∀ s a t, f s a = some t → S.step s a t)
    {as : List α} : ∀ {s t : σ}, as.foldlM f s = some t →
      ∃ tr, S.Path s tr t ∧ tr.map (fun m => m.2.1) = as := by
  induction as with
  | nil =>
    intro s t h
    obtain rfl := Option.some.inj h
    exact ⟨[], .nil, rfl⟩
  | cons a as ih =>
    intro s t h
    rw [List.foldlM_cons] at h
    obtain ⟨u, hu, h⟩ := Option.bind_eq_some_iff.1 h
    obtain ⟨tr, hp, hmap⟩ := ih h
    exact ⟨(s, a, u) :: tr, hp.cons (hf s a u hu), by simp [hmap]⟩

/-- If every step conforms, so does the path. -/
theorem Path.of_foldlM_of {f : σ → α → Option σ} (hf : ∀ s a t, f s a = some t → S.step s a t)
    {C : σ → α → Prop} [∀ s a, Decidable (C s a)] {as : List α} {s t : σ}
    (h : as.foldlM (fun s a => if C s a then f s a else none) s = some t) :
    ∃ tr, S.Path s tr t ∧ tr.map (fun m => m.2.1) = as ∧ ∀ m ∈ tr, C m.1 m.2.1 := by
  let conforming : LTS σ α := ⟨S.init, fun s a t => S.step s a t ∧ C s a⟩
  have hstep : ∀ s a t, (if C s a then f s a else none) = some t → conforming.step s a t := by
    intro s a t hst
    split at hst
    · exact ⟨hf s a t hst, ‹_›⟩
    · cases hst
  obtain ⟨tr, hp, hmap⟩ := Path.of_foldlM hstep h
  exact ⟨tr, hp.mono fun _ _ _ hst => hst.1, hmap, fun m hm => (hp.step_of_mem hm).2⟩

/-- Let `I` hold initially, imply `P`, survive every conforming step, and let `P` fail after
a step from `I` that does not conform. Then `P` holds all along a run if and only if every
step of the run conforms. -/
theorem Run.forall_iff {I P : σ → Prop} {C : σ → α → Prop} {t : σ}
    {tr : List (σ × α × σ)} (h : S.Run tr t) (hinit : ∀ s, S.init s → I s)
    (hIP : ∀ s, I s → P s) (hstep : ∀ t a u, I t → C t a → S.step t a u → I u)
    (hbad : ∀ t a u, I t → ¬C t a → S.step t a u → ¬P u) :
    (∀ m ∈ tr, P m.1 ∧ P m.2.2) ↔ ∀ m ∈ tr, C m.1 m.2.1 := by
  obtain ⟨s, hs, hp⟩ := h
  constructor
  · intro hP
    induction hp with
    | nil => simp
    | @snoc tr t u a hp hst ih =>
      have hC := ih fun m hm => hP m (List.mem_append_left _ hm)
      have ht : I t := (hp.invariant_of (hinit s hs) hstep hC).1
      intro m hm
      rcases List.mem_append.1 hm with hm | hm
      · exact hC m hm
      · obtain rfl := List.mem_singleton.1 hm
        by_contra hc
        exact hbad t a u ht hc hst (hP (t, a, u) (by simp)).2
  · intro hC m hm
    obtain ⟨h1, h2⟩ := (hp.invariant_of (hinit s hs) hstep hC).2 m hm
    exact ⟨hIP _ h1, hIP _ h2⟩

end LTS

end Nowra
