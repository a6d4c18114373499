import Mathlib.Algebra.BigOperators.Group.Finset.Basic

/-!
# Locks and counts of threads

Each thread is at a place of its program, and the place says which locks it has.
`Locked` says that this agrees with what the locks themselves say; a step in which
one thread moves keeps it when the thread only takes a free lock, gives back one
that it has, or leaves the locks alone. So no two threads have a lock at once.

A sum over threads changes by what the one thread that moves contributes.
-/

namespace Lib

variable {π μ : Type} {holds holds' : π → μ → Bool} {holder holder' : μ → Option π}

/-- Who has a lock is at a place where it has the lock, and the other way round. -/
def Locked (holds : π → μ → Bool) (holder : μ → Option π) : Prop :=
  ∀ x m, holds x m = true ↔ holder m = some x

namespace Locked

theorem unique (h : Locked holds holder) {x y : π} {m : μ} (hx : holds x m = true)
    (hy : holds y m = true) : x = y :=
  Option.some.inj (((h x m).mp hx).symm.trans ((h y m).mp hy))

theorem free (h : Locked holds holder) {m : μ} (hfree : holder m = none) (x : π) :
    holds x m = false := by
  rw [← Bool.not_eq_true, h x m, hfree]
  nofun

/-- A step of a thread that leaves the locks alone. -/
theorem stay (h : Locked holds holder) (hholds : ∀ x m, holds' x m = holds x m) :
    Locked holds' holder := by
  intro x m
  rw [hholds]
  exact h x m

variable [DecidableEq μ] {x₀ : π} {m₀ : μ}

theorem take (h : Locked holds holder) (hfree : holder m₀ = none)
    (hself : ∀ m, holds' x₀ m = true ↔ holds x₀ m = true ∨ m = m₀)
    (hothers : ∀ x, x ≠ x₀ → ∀ m, holds' x m = holds x m)
    (hholder : holder' = Function.update holder m₀ (some x₀)) : Locked holds' holder' := by
  intro x m
  rw [hholder]
  by_cases hx : x = x₀
  · subst hx
    rw [hself]
    by_cases hm : m = m₀
    · subst hm
      simp
    · simp [hm, h x m]
  · rw [hothers x hx]
    by_cases hm : m = m₀
    · subst hm
      have hne : x₀ ≠ x := Ne.symm hx
      simp [h.free hfree x, hne]
    · simp [hm, h x m]

theorem give (h : Locked holds holder) (hhas : holds x₀ m₀ = true)
    (hself : ∀ m, holds' x₀ m = true ↔ holds x₀ m = true ∧ m ≠ m₀)
    (hothers : ∀ x, x ≠ x₀ → ∀ m, holds' x m = holds x m)
    (hholder : holder' = Function.update holder m₀ none) : Locked holds' holder' := by
  intro x m
  rw [hholder]
  by_cases hx : x = x₀
  · subst hx
    rw [hself]
    by_cases hm : m = m₀
    · subst hm
      simp
    · simp [hm, h x m]
  · rw [hothers x hx]
    by_cases hm : m = m₀
    · subst hm
      have hnot : holds x m ≠ true := fun hholds => hx (h.unique hholds hhas)
      simp [hnot]
    · simp [hm, h x m]

end Locked

theorem sum_exchange {ι M : Type} [AddCommMonoid M] [DecidableEq ι] {s : Finset ι} {f g : ι → M}
    {i : ι} (hi : i ∈ s) (h : ∀ j, j ≠ i → f j = g j) :
    ∑ j ∈ s, f j + g i = ∑ j ∈ s, g j + f i := by
  rw [← Finset.add_sum_erase s f hi, ← Finset.add_sum_erase s g hi,
    Finset.sum_congr rfl fun j hj => h j (Finset.ne_of_mem_erase hj), add_right_comm,
      add_comm (f i),
    add_right_comm]

end Lib
