import Mathlib.Algebra.BigOperators.Group.Finset.Basic
import Mathlib.Data.Fintype.Basic

/-!
# Threads by the code they have left

A thread is the list of the instructions it has still to run, over a memory that all threads
share (`Threads`). The first instruction is blocked, or it changes the memory and is replaced by
other instructions : by none for a plain one, by the body and the test again for a loop, by a whole
procedure for a call (`Threads.step`).

There are two rules. A weight summed over the code of all threads changes by what the instruction
and its replacement weigh (`totalSum_update`), so a value of the memory that changes by as much
stays that sum. And where each thread has a lock taken and released in turn in the code it has left
(`Locks`), the owner of the lock is the thread whose code releases it first (`locks_step`).
-/

namespace Nowra

variable {τ ι α M A : Type*}

/-- Threads over a memory. -/
structure Threads (τ ι M : Type*) where
  mem : M
  code : τ → List ι

section Step

variable [DecidableEq τ]

/-- The first instruction of a thread is replaced by `new`. -/
def Threads.replaced (s : Threads τ ι M) (t : τ) (mem : M) (new rest : List ι) : Threads τ ι M where
  mem := mem
  code := Function.update s.code t (new ++ rest)

/-- Thread `t` runs its next instruction. -/
def Threads.step (exec : τ → α → ι → M → Option (M × List ι)) (s : Threads τ ι M) (t : τ) (a : α) :
    Option (Threads τ ι M) :=
  match s.code t with
  | [] => none
  | i :: rest => (exec t a i s.mem).map fun r => s.replaced t r.1 r.2 rest

variable {exec : τ → α → ι → M → Option (M × List ι)} {s s' : Threads τ ι M} {t : τ} {a : α}

theorem Threads.exists_exec (h : s.step exec t a = some s') :
    ∃ i rest mem new, s.code t = i :: rest ∧ exec t a i s.mem = some (mem, new) ∧
      s' = s.replaced t mem new rest := by
  unfold Threads.step at h
  split at h
  · cases h
  · next i rest hc =>
    obtain ⟨⟨mem, new⟩, he, rfl⟩ := Option.map_eq_some_iff.1 h
    exact ⟨i, rest, mem, new, hc, he, rfl⟩

@[simp] theorem Threads.replaced_mem (mem : M) (new rest : List ι) :
    (s.replaced t mem new rest).mem = mem := rfl

@[simp] theorem Threads.replaced_code_self (mem : M) (new rest : List ι) :
    (s.replaced t mem new rest).code t = new ++ rest :=
  Function.update_self ..

theorem Threads.replaced_code_of_ne {u : τ} (hu : u ≠ t) (mem : M) (new rest : List ι) :
    (s.replaced t mem new rest).code u = s.code u :=
  Function.update_of_ne hu ..

end Step

/-! ## Weights -/

/-- The weight of code. -/
def codeSum [AddMonoid A] (w : ι → A) (code : List ι) : A := (code.map w).sum

section CodeSum

variable [AddMonoid A] (w : ι → A)

@[simp] theorem codeSum_nil : codeSum w [] = 0 := rfl

@[simp] theorem codeSum_cons (i : ι) (code : List ι) :
    codeSum w (i :: code) = w i + codeSum w code :=
  List.sum_cons

@[simp] theorem codeSum_append (code code' : List ι) :
    codeSum w (code ++ code') = codeSum w code + codeSum w code' := by
  simp [codeSum]

variable {w} in
/-- Code of which nothing weighs anything. -/
theorem codeSum_eq_zero {code : List ι} (h : ∀ i ∈ code, w i = 0) : codeSum w code = 0 :=
  List.sum_eq_zero (by simpa using h)

end CodeSum

section TotalSum

variable [Fintype τ] [AddCommMonoid A] (w : ι → A)

/-- The weight of the code of all threads. -/
def totalSum (code : τ → List ι) : A := ∑ t, codeSum w (code t)

variable [DecidableEq τ]

/-- A thread's code counts once. -/
theorem totalSum_eq_add (code : τ → List ι) (t : τ) :
    totalSum w code = codeSum w (code t) + ∑ u ∈ Finset.univ.erase t, codeSum w (code u) :=
  (Finset.add_sum_erase _ _ (Finset.mem_univ t)).symm

/-- The change of the sum is the change of the thread that moves. -/
theorem totalSum_update {code : τ → List ι} {t : τ} {i : ι} {rest : List ι}
    (hc : code t = i :: rest) (new : List ι) :
    totalSum w (Function.update code t (new ++ rest)) + w i = totalSum w code + codeSum w new := by
  have hrest : ∑ u ∈ Finset.univ.erase t, codeSum w (Function.update code t (new ++ rest) u) =
      ∑ u ∈ Finset.univ.erase t, codeSum w (code u) :=
    Finset.sum_congr rfl fun u hu => by rw [Function.update_of_ne (Finset.ne_of_mem_erase hu)]
  rw [totalSum_eq_add w _ t, totalSum_eq_add w code t, hrest, Function.update_self, hc,
    codeSum_append, codeSum_cons]
  ac_rfl

end TotalSum

/-! ## A lock -/

/-- What an instruction does with a lock. -/
inductive LockUse
  | acquires
  | releases
  /-- What replaces it may take the lock and release it again, so it is not for the owner. -/
  | outside
  | neutral
  deriving DecidableEq

/-- Code takes the lock and releases it in turn, `held` being whether the thread has it. -/
def Locks (use : ι → LockUse) : List ι → Prop → Prop
  | [], held => ¬held
  | i :: code, held =>
    match use i with
    | .acquires => ¬held ∧ Locks use code True
    | .releases => held ∧ Locks use code False
    | .outside => ¬held ∧ Locks use code held
    | .neutral => Locks use code held

section Locks

variable {use : ι → LockUse} {code code' : List ι} {held : Prop}

theorem Locks.congr {held' : Prop} (h : Locks use code held) (hiff : held ↔ held') :
    Locks use code held' :=
  propext hiff ▸ h

/-- An owner's code releases the lock. -/
theorem Locks.exists_releases (h : Locks use code held) (hheld : held) :
    ∃ i ∈ code, use i = .releases := by
  induction code with
  | nil => exact absurd hheld h
  | cons i code ih =>
    cases hu : use i with
    | releases => exact ⟨i, by simp, hu⟩
    | acquires | outside =>
      simp only [Locks, hu] at h
      exact absurd hheld h.1
    | neutral =>
      simp only [Locks, hu] at h
      obtain ⟨j, hj, hr⟩ := ih h
      exact ⟨j, List.mem_cons_of_mem _ hj, hr⟩

theorem Locks.append_neutral (h : Locks use code held) :
    ∀ {new : List ι}, (∀ i ∈ new, use i = .neutral) → Locks use (new ++ code) held
  | [], _ => h
  | i :: new, hn => by
    simp only [List.cons_append, Locks, hn i (by simp)]
    exact h.append_neutral fun j hj => hn j (List.mem_cons_of_mem _ hj)

/-- Code that ends without the lock is followed by code that starts without it. -/
theorem Locks.append (h' : Locks use code' False) (h : Locks use code held) :
    Locks use (code ++ code') held := by
  induction code generalizing held with
  | nil => exact h'.congr (iff_of_false id h)
  | cons i code ih =>
    cases hu : use i <;> simp only [List.cons_append, Locks, hu] at h ⊢
    · exact ⟨h.1, ih h.2⟩
    · exact ⟨h.1, ih h.2⟩
    · exact ⟨h.1, ih h.2⟩
    · exact ih h

end Locks

/-- What an instruction of a thread may do with the owner and be replaced by. -/
def LockUse.Allows (use : ι → LockUse) (t : τ) (owner owner' : Option τ) (new : List ι) :
    LockUse → Prop
  | .acquires => owner = none ∧ owner' = some t ∧ ∀ i ∈ new, use i = .neutral
  | .releases => owner' = none ∧ ∀ i ∈ new, use i = .neutral
  | .outside => owner' = owner ∧ Locks use new False
  | .neutral => owner' = owner ∧ ∀ i ∈ new, use i = .neutral

/-- The owner stays the one whose code releases the lock. -/
theorem locks_step [DecidableEq τ] {use : ι → LockUse} {code : τ → List ι} {t : τ} {i : ι}
    {new rest : List ι} {owner owner' : Option τ}
    (h : ∀ u, Locks use (code u) (owner = some u)) (hc : code t = i :: rest)
    (ha : (use i).Allows use t owner owner' new) (u : τ) :
    Locks use (Function.update code t (new ++ rest) u) (owner' = some u) := by
  have ht := h t
  rw [hc] at ht
  by_cases hu : u = t
  · subst hu
    rw [Function.update_self]
    cases hi : use i <;> simp only [Locks, LockUse.Allows, hi] at ht ha
    · exact (ht.2.congr (iff_of_true trivial ha.2.1)).append_neutral ha.2.2
    · exact (ht.2.congr (iff_of_false id (by simp [ha.1]))).append_neutral ha.2
    · rw [ha.1]
      exact (ht.2.congr (iff_of_false ht.1 id)).append (ha.2.congr (iff_of_false id ht.1))
    · rw [ha.1]
      exact ht.append_neutral ha.2
  · rw [Function.update_of_ne hu]
    refine (h u).congr ?_
    cases hi : use i <;> simp only [Locks, LockUse.Allows, hi] at ht ha
    · simp [ha.1, ha.2.1, Ne.symm hu]
    · simp [ha.1, ht.1, Ne.symm hu]
    · rw [ha.1]
    · rw [ha.1]

end Nowra
