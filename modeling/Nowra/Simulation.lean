import Nowra.Run

/-!
# Forward simulation

One system is simulated by another when related states stay related : each step below is matched
by a step above that shows the same, or by none if it shows nothing (`Simulation`). What shows of
a path is told move by move (`observed`). The steps above are a run with the same observations
(`Simulation.run`), so what holds of all states reached above holds, through the relation, of all
states reached below (`Simulation.reach`). Simulations compose (`Simulation.trans`), and can be
restricted to runs that stay in a set of states (`Simulation.within`).
-/

namespace Nowra

namespace LTS

variable {σ α τ β ω : Type*}

/-- What shows of a path, in order. -/
def observed (obs : σ × α × σ → List ω) (tr : List (σ × α × σ)) : List ω :=
  tr.flatMap obs

section Observed

variable (obs : σ × α × σ → List ω)

@[simp] theorem observed_nil : observed obs [] = [] := rfl

@[simp] theorem observed_append (tr tr' : List (σ × α × σ)) :
    observed obs (tr ++ tr') = observed obs tr ++ observed obs tr' :=
  List.flatMap_append

@[simp] theorem observed_singleton (m : σ × α × σ) : observed obs [m] = obs m := by
  simp [observed]

end Observed

variable {S : LTS σ α} {T : LTS τ β} {R : σ → τ → Prop} {obs : σ × α × σ → List ω}
  {obs' : τ × β × τ → List ω}

/-- At `t` the system above can show `shown` with one step, or nothing with none, and be related to
`s'` then. -/
def Matches (T : LTS τ β) (R : σ → τ → Prop) (obs' : τ × β × τ → List ω) (shown : List ω) (s' : σ)
    (t : τ) : Prop :=
  shown = [] ∧ R s' t ∨ ∃ b t', T.step t b t' ∧ obs' (t, b, t') = shown ∧ R s' t'

/-- Related states stay related, and show the same. -/
structure Simulation (S : LTS σ α) (T : LTS τ β) (R : σ → τ → Prop) (obs : σ × α × σ → List ω)
    (obs' : τ × β × τ → List ω) : Prop where
  init : ∀ s, S.init s → ∃ tr t, T.Run tr t ∧ observed obs' tr = [] ∧ R s t
  step : ∀ s a s' t, R s t → S.step s a s' → Matches T R obs' (obs (s, a, s')) s' t

/-- A run is matched by a run. -/
theorem Simulation.run (h : Simulation S T R obs obs') {s : σ} {tr : List (σ × α × σ)}
    (hr : S.Run tr s) : ∃ tr' t, T.Run tr' t ∧ observed obs' tr' = observed obs tr ∧ R s t := by
  obtain ⟨s₀, hinit, hp⟩ := hr
  induction hp with
  | nil => exact h.init s₀ hinit
  | @snoc tr u v a _ hst ih =>
    obtain ⟨tr', t, hrun, hshown, hR⟩ := ih
    rcases h.step _ _ _ _ hR hst with ⟨hnil, hR'⟩ | ⟨b, t', hst', hone, hR'⟩
    · exact ⟨tr', t, hrun, by simp [hshown, hnil], hR'⟩
    · exact ⟨_, t', hrun.append (.single hst'), by simp [hshown, hone], hR'⟩

/-- A state that is reached is related to one that is reached above. -/
theorem Simulation.reach (h : Simulation S T R obs obs') {s : σ} (hr : S.Reach s) :
    ∃ t, T.Reach t ∧ R s t := by
  obtain ⟨tr, hrun⟩ := hr
  obtain ⟨tr', t, hrun', -, hR⟩ := h.run hrun
  exact ⟨t, ⟨tr', hrun'⟩, hR⟩

/-- So is a state that is passed. -/
theorem Simulation.passed (h : Simulation S T R obs obs') {s : σ} {tr : List (σ × α × σ)}
    (hr : S.Run tr s) : ∀ m ∈ tr, ∃ t, T.Reach t ∧ R m.1 t := by
  intro m hm
  obtain ⟨pre, post, rfl⟩ := List.append_of_mem hm
  obtain ⟨s₀, hinit, hp⟩ := hr
  exact h.reach ⟨pre, s₀, hinit, (hp.of_append_cons rfl).1⟩

/-- Simulations of one system by another and of that by a third make one. -/
theorem Simulation.trans {υ γ : Type*} {U : LTS υ γ} {R' : τ → υ → Prop}
    {obs'' : υ × γ × υ → List ω} (h : Simulation S T R obs obs')
    (h' : Simulation T U R' obs' obs'') :
    Simulation S U (fun s u => ∃ t, R s t ∧ R' t u) obs obs'' where
  init s hs := by
    obtain ⟨tr, t, hrun, hnil, hR⟩ := h.init s hs
    obtain ⟨tr', u, hrun', hobs, hR'⟩ := h'.run hrun
    exact ⟨tr', u, hrun', hobs.trans hnil, t, hR, hR'⟩
  step := by
    rintro s a s' u ⟨t, hR, hR'⟩ hst
    rcases h.step s a s' t hR hst with ⟨hnil, hR⟩ | ⟨b, t', hst', hone, hR⟩
    · exact .inl ⟨hnil, t, hR, hR'⟩
    · rcases h'.step t b t' u hR' hst' with ⟨hnil, hR'⟩ | ⟨c, u', hst'', hone', hR'⟩
      · exact .inl ⟨hone.symm.trans hnil, t', hR, hR'⟩
      · exact .inr ⟨c, u', hst'', hone'.trans hone, t', hR, hR'⟩

/-! ## Runs within a set of states -/

/-- The steps of a system into the states with `P`. -/
def within (S : LTS σ α) (P : σ → Prop) : LTS σ α where
  init := S.init
  step s a t := S.step s a t ∧ P t

theorem Run.of_within {P : σ → Prop} {s : σ} {tr : List (σ × α × σ)} (h : (S.within P).Run tr s) :
    S.Run tr s := by
  obtain ⟨s₀, hinit, hp⟩ := h
  exact ⟨s₀, hinit, hp.mono fun _ _ _ hst => hst.1⟩

/-- A run into states with `P` only. -/
theorem Run.within {P : σ → Prop} {s : σ} {tr : List (σ × α × σ)} (h : S.Run tr s)
    (hP : ∀ m ∈ tr, P m.2.2) : (S.within P).Run tr s := by
  obtain ⟨s₀, hinit, hp⟩ := h
  refine ⟨s₀, hinit, ?_⟩
  induction hp with
  | nil => exact .nil
  | @snoc tr u v a _ hst ih =>
    exact (ih fun m hm => hP m (List.mem_append_left _ hm)).snoc ⟨hst, hP (u, a, v) (by simp)⟩

/-- A simulation stays one within the states with `P`, if these are related to states with `Q`. -/
theorem Simulation.within {P : σ → Prop} {Q : τ → Prop} (h : Simulation S T R obs obs')
    (hinit : ∀ s, S.init s → ∃ tr t, (T.within Q).Run tr t ∧ observed obs' tr = [] ∧ R s t)
    (hPQ : ∀ s t, P s → R s t → Q t) : Simulation (S.within P) (T.within Q) R obs obs' where
  init := hinit
  step s a s' t hR hst := by
    rcases h.step s a s' t hR hst.1 with hnil | ⟨b, t', hst', hone, hR'⟩
    · exact .inl hnil
    · exact .inr ⟨b, t', ⟨hst', hPQ s' t' hst.2 hR'⟩, hone, hR'⟩

end LTS

end Nowra
