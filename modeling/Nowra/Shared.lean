import Mathlib.Logic.Function.Basic
import Nowra.Run

/-!
# Components over a shared variable

A component has a state of its own, and its steps read and write one variable (`Comp`). It
runs alone (`Comp.alone`) or interleaved with others over the same variable (`interleave`),
where `moves b` is what component `b` does.

Alone, the variable has the value that the component's own steps left there, a function of
its state (`Comp.Tracks`). `moves_alone_iff` says when the company makes no difference : what
`b` does in a run is something it could have done alone if and only if each of its moves is
one it makes at that value.
-/

namespace Nowra

/-- A component over a variable of type `G`. -/
structure Comp (G C L : Type*) where
  init : C
  step : G → C → L → Option (G × C)

namespace Comp

variable {G C L : Type*}

/-- The component with the variable to itself. -/
def alone (K : Comp G C L) (g₀ : G) : LTS (G × C) L where
  init s := s = (g₀, K.init)
  step s a t := K.step s.1 s.2 a = some t

/-- What a path of the component does, without the variable. -/
def own (tr : List ((G × C) × L × (G × C))) : List (C × L × C) :=
  tr.map fun m => (m.1.2, m.2.1, m.2.2.2)

@[simp] theorem own_append (tr tr' : List ((G × C) × L × (G × C))) :
    own (tr ++ tr') = own tr ++ own tr' :=
  List.map_append

/-- Alone, the variable always has the value `view` of the component's state. -/
structure Tracks (K : Comp G C L) (g₀ : G) (view : C → G) : Prop where
  init : view K.init = g₀
  step : ∀ {c : C} {a : L} {r : G × C}, K.step (view c) c a = some r → r.1 = view r.2

/-- A move the component makes when the variable has the value `view` of its state. -/
def AtView (K : Comp G C L) (view : C → G) (m : C × L × C) : Prop :=
  K.step (view m.1) m.1 m.2.1 = some (view m.2.2, m.2.2)

theorem Tracks.atView_of_run {K : Comp G C L} {g₀ : G} {view : C → G} (h : K.Tracks g₀ view)
    {tr : List ((G × C) × L × (G × C))} {t : G × C} (hr : (K.alone g₀).Run tr t) :
    t.1 = view t.2 ∧ ∀ m ∈ own tr, K.AtView view m := by
  have hinv := hr.invariant (P := fun s => s.1 = view s.2) (by rintro _ rfl; exact h.init.symm)
    fun s a t hs hst => h.step (show K.step (view s.2) s.2 a = some t from hs ▸ hst)
  obtain ⟨s₀, -, hp⟩ := hr
  refine ⟨hinv.1, fun m hm => ?_⟩
  obtain ⟨⟨s, a, t⟩, hm', rfl⟩ := List.mem_map.1 hm
  obtain ⟨hs, ht⟩ := hinv.2 _ hm'
  have hst : K.step s.1 s.2 a = some t := hp.step_of_mem hm'
  simp only [AtView]
  rw [← hs, ← ht]
  exact hst

end Comp

/-! ## Interleaving -/

variable {ι G : Type*} [DecidableEq ι] {C L : ι → Type*}

/-- A step of one of the components. -/
def sharedStep (K : ∀ i, Comp G (C i) (L i)) (s : G × ∀ i, C i) (a : Σ i, L i) :
    Option (G × ∀ i, C i) :=
  ((K a.1).step s.1 (s.2 a.1) a.2).map fun r => (r.1, Function.update s.2 a.1 r.2)

/-- The components over one variable, in any order of steps. -/
def interleave (K : ∀ i, Comp G (C i) (L i)) (g₀ : G) : LTS (G × ∀ i, C i) (Σ i, L i) where
  init s := s = (g₀, fun i => (K i).init)
  step s a t := sharedStep K s a = some t

/-- The label, if it is one of component `b`. -/
def labelOf (b : ι) (a : Σ i, L i) : Option (L b) :=
  if h : a.1 = b then some (h ▸ a.2) else none

@[simp] theorem labelOf_self (b : ι) (a : L b) : labelOf b ⟨b, a⟩ = some a := by
  simp [labelOf]

theorem labelOf_ne {b : ι} {a : Σ i, L i} (h : a.1 ≠ b) : labelOf b a = none := by
  simp [labelOf, h]

/-- What component `b` does in a path. -/
def moves (b : ι) (tr : List ((G × ∀ i, C i) × (Σ i, L i) × (G × ∀ i, C i))) :
    List (C b × L b × C b) :=
  tr.filterMap fun m => (labelOf b m.2.1).map fun a => (m.1.2 b, a, m.2.2.2 b)

variable {K : ∀ i, Comp G (C i) (L i)} {g₀ : G} {b : ι}
  {tr : List ((G × ∀ i, C i) × (Σ i, L i) × (G × ∀ i, C i))} {s t : G × ∀ i, C i}

/-- A step of `b` in the interleaving is a step of the component. -/
theorem sharedStep_own {a : L b} (h : sharedStep K s ⟨b, a⟩ = some t) :
    (K b).step s.1 (s.2 b) a = some (t.1, t.2 b) := by
  obtain ⟨r, hr, rfl⟩ := Option.map_eq_some_iff.1 h
  simpa using hr

/-- A step of another component leaves `b` alone. -/
theorem sharedStep_frame {a : Σ i, L i} (h : sharedStep K s a = some t) (hne : a.1 ≠ b) :
    t.2 b = s.2 b := by
  obtain ⟨r, hr, rfl⟩ := Option.map_eq_some_iff.1 h
  exact Function.update_of_ne hne.symm _ _

theorem sharedStep_self {a : L b} {r : G × C b} (h : (K b).step s.1 (s.2 b) a = some r) :
    sharedStep K s ⟨b, a⟩ = some (r.1, Function.update s.2 b r.2) := by
  simp [sharedStep, h]

theorem mem_moves {m : C b × L b × C b} : m ∈ moves b tr ↔
    ∃ s a t, (s, ⟨b, a⟩, t) ∈ tr ∧ m = (s.2 b, a, t.2 b) := by
  constructor
  · intro hm
    obtain ⟨⟨s, ⟨i, a⟩, t⟩, hmem, h⟩ := List.mem_filterMap.1 hm
    obtain ⟨a', ha', rfl⟩ := Option.map_eq_some_iff.1 h
    rcases eq_or_ne i b with rfl | hne
    · rw [labelOf_self] at ha'
      obtain rfl := Option.some.inj ha'
      exact ⟨s, a, t, hmem, rfl⟩
    · rw [labelOf_ne hne] at ha'
      cases ha'
  · rintro ⟨s, a, t, hmem, rfl⟩
    exact List.mem_filterMap.2 ⟨_, hmem, by simp⟩

/-- A move of a component in a run is a step it makes at some value of the variable. -/
theorem exists_step_of_mem_moves (hr : (interleave K g₀).Run tr t) {m : C b × L b × C b}
    (hm : m ∈ moves b tr) : ∃ g g', (K b).step g m.1 m.2.1 = some (g', m.2.2) := by
  obtain ⟨s₀, -, hp⟩ := hr
  obtain ⟨s, a, t, hmem, rfl⟩ := mem_moves.1 hm
  exact ⟨s.1, t.1, sharedStep_own (hp.step_of_mem hmem)⟩

theorem moves_snoc_self (a : L b) : moves b (tr ++ [(s, ⟨b, a⟩, t)]) =
    moves b tr ++ [(s.2 b, a, t.2 b)] := by
  simp [moves]

theorem moves_snoc_ne {a : Σ i, L i} (h : a.1 ≠ b) :
    moves b (tr ++ [(s, a, t)]) = moves b tr := by
  simp [moves, labelOf_ne h]

/-- What conforming moves of `b` keep holds of `b` after a run in which its moves conform. -/
theorem moves_invariant {P : C b → Prop} {Q : C b × L b × C b → Prop}
    (hr : (interleave K g₀).Run tr t) (hinit : P (K b).init)
    (hstep : ∀ c a c', P c → Q (c, a, c') → P c') (hQ : ∀ m ∈ moves b tr, Q m) : P (t.2 b) := by
  obtain ⟨s₀, rfl, hp⟩ := hr
  induction hp with
  | nil => exact hinit
  | @snoc tr t u a hp hst ih =>
    obtain ⟨i, a⟩ := a
    rcases eq_or_ne i b with rfl | hne
    · rw [moves_snoc_self] at hQ
      have ht := ih fun m hm => hQ m (List.mem_append_left _ hm)
      exact hstep _ a _ ht (hQ _ (by simp))
    · rw [moves_snoc_ne hne] at hQ
      exact sharedStep_frame hst hne ▸ ih hQ

/-- A component whose moves are all at its view has made them alone. -/
theorem alone_of_moves {view : C b → G} (h : (K b).Tracks g₀ view)
    (hr : (interleave K g₀).Run tr t) (hat : ∀ m ∈ moves b tr, (K b).AtView view m) :
    ∃ tr', ((K b).alone g₀).Run tr' (view (t.2 b), t.2 b) ∧ Comp.own tr' = moves b tr := by
  obtain ⟨s₀, rfl, hp⟩ := hr
  induction hp with
  | nil => exact ⟨[], ⟨_, rfl, by rw [h.init]; exact .nil⟩, rfl⟩
  | @snoc tr t u a hp hst ih =>
    obtain ⟨i, a⟩ := a
    rcases eq_or_ne i b with rfl | hne
    · rw [moves_snoc_self] at hat ⊢
      obtain ⟨tr', ⟨s₀', hs₀', hp'⟩, hown⟩ := ih fun m hm => hat m (List.mem_append_left _ hm)
      have hview : (K i).AtView view (t.2 i, a, u.2 i) := hat _ (by simp)
      refine ⟨_, ⟨s₀', hs₀', hp'.snoc (a := a) hview⟩, ?_⟩
      rw [Comp.own_append, hown]
      rfl
    · -- the others' moves leave `b` where it was
      rw [moves_snoc_ne hne] at hat ⊢
      rw [sharedStep_frame hst hne]
      exact ih hat

/-- What a component does in company is something it could have done alone if and only if each
of its moves is one it makes at its view. -/
theorem moves_alone_iff {view : C b → G} (h : (K b).Tracks g₀ view)
    (hr : (interleave K g₀).Run tr t) :
    (∃ tr' t', ((K b).alone g₀).Run tr' t' ∧ Comp.own tr' = moves b tr) ↔
      ∀ m ∈ moves b tr, (K b).AtView view m := by
  constructor
  · rintro ⟨tr', t', hr', hown⟩
    rw [← hown]
    exact (h.atView_of_run hr').2
  · intro hat
    obtain ⟨tr', hr', hown⟩ := alone_of_moves h hr hat
    exact ⟨tr', _, hr', hown⟩

/-- What a component can do with the variable to itself it can do in company, if the others
wait. -/
theorem path_of_alone {tr' : List ((G × C b) × L b × (G × C b))} {r : G × C b}
    (hp : ((K b).alone g₀).Path (s.1, s.2 b) tr' r) :
    ∃ tr, (interleave K g₀).Path s tr (r.1, Function.update s.2 b r.2) ∧
      tr.map (fun m => m.2.1) = (tr'.map fun m => m.2.1).map (Sigma.mk b) := by
  induction hp with
  | nil => exact ⟨[], by rw [Function.update_eq_self]; exact .nil, rfl⟩
  | @snoc tr' r r' a _ hst ih =>
    obtain ⟨tr, hp, hmap⟩ := ih
    have hst' : (K b).step r.1 (Function.update s.2 b r.2 b) a = some r' := by
      rw [Function.update_self]
      exact hst
    have hself := sharedStep_self (s := (r.1, Function.update s.2 b r.2)) hst'
    rw [Function.update_idem] at hself
    exact ⟨_, hp.snoc hself, by simp [hmap]⟩

end Nowra
