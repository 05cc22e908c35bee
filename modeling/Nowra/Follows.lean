import Nowra.Msg

/-!
# Following a computation

A computation follows another one if it ends as the other does, with related results or with the
same error, unless it fails with an error that does not count (`Follows`). Sequences follow part by
part (`Follows.bind`), and a part that the other computation does not have needs a postcondition
only (`Yields`, `Follows.bind_left`).
-/

namespace Nowra

variable {ε α β γ δ : Type} {lost : ε → Prop}

/-- `x` fails with an error that is lost, or ends as `y` does. -/
structure Follows (lost : ε → Prop) (x : Except ε α) (y : Except ε β) (R : α → β → Prop) :
    Prop where
  ok : ∀ a, x = .ok a → ∃ b, y = .ok b ∧ R a b
  error : ∀ e, x = .error e → lost e ∨ y = .error e

/-- `x` fails with an error that is lost, or returns a result with `P`. -/
structure Yields (lost : ε → Prop) (x : Except ε α) (P : α → Prop) : Prop where
  ok : ∀ a, x = .ok a → P a
  error : ∀ e, x = .error e → lost e

namespace Yields

variable {x : Except ε α} {P Q : α → Prop}

theorem of_eq {a : α} (hx : x = .ok a) (h : P a) : Yields lost x P where
  ok _ hx' := Except.ok.inj (hx.symm.trans hx') ▸ h
  error e hx' := by cases hx.symm.trans hx'

theorem of_error {e : ε} (hx : x = .error e) (h : lost e) : Yields lost x P where
  ok a hx' := by cases hx.symm.trans hx'
  error _ hx' := Except.error.inj (hx.symm.trans hx') ▸ h

theorem mono (h : Yields lost x P) (hPQ : ∀ a, P a → Q a) : Yields lost x Q where
  ok a hx := hPQ a (h.ok a hx)
  error := h.error

theorem weaken {lost' : ε → Prop} (h : Yields lost x P) (hlost : ∀ e, lost e → lost' e) :
    Yields lost' x P where
  ok := h.ok
  error e hx := hlost e (h.error e hx)

/-- The result is the one that `x` returns. -/
theorem and_eq (h : Yields lost x P) : Yields lost x fun a => x = .ok a ∧ P a where
  ok a hx := ⟨hx, h.ok a hx⟩
  error := h.error

theorem bind {f : α → Except ε β} {Q : β → Prop} (h : Yields lost x P)
    (hf : ∀ a, P a → Yields lost (f a) Q) : Yields lost (x >>= f) Q where
  ok b hb := by
    obtain ⟨a, hx, hb⟩ := bind_ok_iff.1 hb
    exact (hf a (h.ok a hx)).ok b hb
  error e he := by
    rcases bind_error_iff.1 he with hx | ⟨a, hx, he⟩
    · exact h.error e hx
    · exact (hf a (h.ok a hx)).error e he

end Yields

namespace Follows

variable {x : Except ε α} {y : Except ε β} {R S : α → β → Prop}

theorem of_eq {a : α} {b : β} (hx : x = .ok a) (hy : y = .ok b) (h : R a b) :
    Follows lost x y R where
  ok _ hx' := ⟨b, hy, Except.ok.inj (hx.symm.trans hx') ▸ h⟩
  error e hx' := by cases hx.symm.trans hx'

theorem of_error {e : ε} (hx : x = .error e) (hy : y = .error e) : Follows lost x y R where
  ok a hx' := by cases hx.symm.trans hx'
  error e' hx' := .inr (hy.trans (congrArg Except.error (Except.error.inj (hx.symm.trans hx'))))

theorem of_lost {e : ε} (hx : x = .error e) (he : lost e) : Follows lost x y R where
  ok a hx' := by cases hx.symm.trans hx'
  error _ hx' := .inl (Except.error.inj (hx.symm.trans hx') ▸ he)

theorem refl (x : Except ε α) : Follows lost x x Eq where
  ok a hx := ⟨a, hx, rfl⟩
  error _ hx := .inr hx

theorem mono (h : Follows lost x y R) (hRS : ∀ a b, R a b → S a b) : Follows lost x y S where
  ok a hx := by
    obtain ⟨b, hy, hR⟩ := h.ok a hx
    exact ⟨b, hy, hRS a b hR⟩
  error := h.error

/-- Sequences follow part by part. -/
theorem bind {f : α → Except ε γ} {g : β → Except ε δ} {S : γ → δ → Prop}
    (h : Follows lost x y R) (hf : ∀ a b, R a b → Follows lost (f a) (g b) S) :
    Follows lost (x >>= f) (y >>= g) S where
  ok c hc := by
    obtain ⟨a, hx, hc⟩ := bind_ok_iff.1 hc
    obtain ⟨b, hy, hR⟩ := h.ok a hx
    obtain ⟨d, hd, hS⟩ := (hf a b hR).ok c hc
    exact ⟨d, bind_ok_iff.2 ⟨b, hy, hd⟩, hS⟩
  error e he := by
    rcases bind_error_iff.1 he with hx | ⟨a, hx, he⟩
    · exact (h.error e hx).imp_right fun hy => bind_error_iff.2 (.inl hy)
    · obtain ⟨b, hy, hR⟩ := h.ok a hx
      exact ((hf a b hR).error e he).imp_right fun hd => bind_error_iff.2 (.inr ⟨b, hy, hd⟩)

/-- A first part that `y` does not have. -/
theorem bind_left {f : α → Except ε γ} {S : γ → β → Prop} {P : α → Prop}
    (h : Yields lost x P) (hf : ∀ a, P a → Follows lost (f a) y S) :
    Follows lost (x >>= f) y S where
  ok c hc := by
    obtain ⟨a, hx, hc⟩ := bind_ok_iff.1 hc
    exact (hf a (h.ok a hx)).ok c hc
  error e he := by
    rcases bind_error_iff.1 he with hx | ⟨a, hx, he⟩
    · exact .inl (h.error e hx)
    · exact (hf a (h.ok a hx)).error e he

end Follows

end Nowra
