import Nowra.Threads

/-!
# Proof outlines

A proof outline says of each instruction from which place it leads to which, and code leads from
one place to another if its instructions do so one after the other (`Outline`). The code that
replaces an instruction leads where the instruction would have led, so that loops and calls are
sequences as well (`Outline.append`).

Threads keep to an outline when the code each has left leads from where the thread is to where it
ends (`Outlined`). When one of them moves, its place is changed and those of the others are not
(`Outlined.step`). So the places of all threads stand for the code they have left, and what a step
does is told by the place of the thread that takes it.
-/

namespace Nowra

variable {τ ι α M Q : Type*}

/-- The code leads from one place to another, `Ok` being what its instructions do. -/
inductive Outline (Ok : ι → Q → Q → Prop) : List ι → Q → Q → Prop
  | nil {q : Q} : Outline Ok [] q q
  | cons {i : ι} {code : List ι} {q q₁ q₂ : Q} (h : Ok i q q₁) (h' : Outline Ok code q₁ q₂) :
      Outline Ok (i :: code) q q₂

namespace Outline

variable {Ok : ι → Q → Q → Prop} {i : ι} {code code' : List ι} {q q₁ q₂ : Q}

theorem single (h : Ok i q q₁) : Outline Ok [i] q q₁ :=
  .cons h .nil

theorem append (h : Outline Ok code q q₁) (h' : Outline Ok code' q₁ q₂) :
    Outline Ok (code ++ code') q q₂ := by
  induction h with
  | nil => exact h'
  | cons hi _ ih => exact .cons hi (ih h')

theorem of_cons (h : Outline Ok (i :: code) q q₂) : ∃ q₁, Ok i q q₁ ∧ Outline Ok code q₁ q₂ := by
  cases h with
  | cons hi h => exact ⟨_, hi, h⟩

theorem of_append (h : Outline Ok (code ++ code') q q₂) :
    ∃ q₁, Outline Ok code q q₁ ∧ Outline Ok code' q₁ q₂ := by
  induction code generalizing q with
  | nil => exact ⟨q, .nil, h⟩
  | cons i code ih =>
    obtain ⟨q₀, hi, h⟩ := h.of_cons
    obtain ⟨q₁, h₁, h₂⟩ := ih h
    exact ⟨q₁, .cons hi h₁, h₂⟩

theorem of_nil (h : Outline Ok [] q q₂) : q = q₂ := by
  cases h
  rfl

end Outline

/-- Each thread is at its place, and its code leads to its last one. -/
def Outlined (Ok : ι → Q → Q → Prop) (last : τ → Q) (code : τ → List ι) (place : τ → Q) : Prop :=
  ∀ t, Outline Ok (code t) (place t) (last t)

variable [DecidableEq τ] {Ok : ι → Q → Q → Prop} {last : τ → Q} {s s' : Threads τ ι M}
  {place : τ → Q}

/-- A thread's next instruction is of the outline, and so is what follows a replacement that leads
to the same place. -/
theorem Outlined.step {t : τ} {i : ι} {rest : List ι} (h : Outlined Ok last s.code place)
    (hc : s.code t = i :: rest) : ∃ q₁, Ok i (place t) q₁ ∧ ∀ mem new q', Outline Ok new q' q₁ →
      Outlined Ok last (s.replaced t mem new rest).code (Function.update place t q') := by
  obtain ⟨q₁, hi, hrest⟩ := (hc ▸ h t : Outline Ok (i :: rest) (place t) (last t)).of_cons
  refine ⟨q₁, hi, fun mem new q' hnew u => ?_⟩
  by_cases hu : u = t
  · subst hu
    rw [Threads.replaced_code_self, Function.update_self]
    exact hnew.append hrest
  · rw [Threads.replaced_code_of_ne hu, Function.update_of_ne hu]
    exact h u

end Nowra
