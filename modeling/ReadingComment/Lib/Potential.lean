import Mathlib.Algebra.Order.Ring.Nat
import ReadingComment.Lib.Run

/-!
# Bounds on the length of runs

A potential is a number that a state may have and that every step lowers, other than
the steps that are counted, which may raise it by a refill at most. A run is then no
longer than the potential that it starts with and a refill for each counted step.
-/

namespace Lib.System

variable {σ α ε : Type}

/-- The states that runs reach, with the number of counted steps and of all steps. -/
inductive Runs (S : System σ α ε) (ok : σ → α → Prop) (counted : σ → Prop) : ℕ → ℕ → σ → Prop
  where
  | init : Runs S ok counted 0 0 S.init
  | step {k n : ℕ} {s s' : σ} {a : α} : Runs S ok counted k n s → S.Allowed s a → ok s a →
    S.step s a = .ok s' → ¬ counted s → Runs S ok counted k (n + 1) s'
  | count {k n : ℕ} {s s' : σ} {a : α} : Runs S ok counted k n s → S.Allowed s a → ok s a →
    S.step s a = .ok s' → counted s → Runs S ok counted (k + 1) (n + 1) s'

variable {S : System σ α ε} {ok : σ → α → Prop} {counted : σ → Prop}

/-- `HasPotential s v`: the state may have the potential `v`. -/
structure Potential (S : System σ α ε) (ok : σ → α → Prop) (counted : σ → Prop) (refill : ℕ)
    (HasPotential : σ → ℕ → Prop) : Prop where
  lower : ∀ s a s' v, HasPotential s v → S.Allowed s a → ok s a → S.step s a = .ok s' →
    ¬ counted s → ∃ v' < v, HasPotential s' v'
  raise : ∀ s a s' v, HasPotential s v → S.Allowed s a → ok s a → S.step s a = .ok s' →
    counted s → ∃ v' < v + refill, HasPotential s' v'

namespace Potential

variable {refill : ℕ} {HasPotential : σ → ℕ → Prop}

/-- **The potential rule**: the steps of a run are paid from the potential at its start and from
the refills. -/
theorem steps_le (h : S.Potential ok counted refill HasPotential) {v₀ : ℕ}
    (h₀ : HasPotential S.init v₀) {k n : ℕ} {s : σ} (hrun : S.Runs ok counted k n s) :
    ∃ v, HasPotential s v ∧ n + v ≤ v₀ + k * refill := by
  induction hrun with
  | init => exact ⟨v₀, h₀, by omega⟩
  | step _ ha hok hs hnot ih =>
    obtain ⟨v, hv, hle⟩ := ih
    obtain ⟨v', hlt, hv'⟩ := h.lower _ _ _ v hv ha hok hs hnot
    exact ⟨v', hv', by omega⟩
  | count _ ha hok hs hc ih =>
    obtain ⟨v, hv, hle⟩ := ih
    obtain ⟨v', hlt, hv'⟩ := h.raise _ _ _ v hv ha hok hs hc
    refine ⟨v', hv', ?_⟩
    rw [Nat.succ_mul]
    omega

end Potential

/-- `S.Steps ok n s s'`: a run of `n` steps from `s` to `s'`. -/
inductive Steps (S : System σ α ε) (ok : σ → α → Prop) : ℕ → σ → σ → Prop where
  | refl (s : σ) : Steps S ok 0 s s
  | step {n : ℕ} {s s' s'' : σ} {a : α} : Steps S ok n s s' → S.Allowed s' a → ok s' a →
    S.step s' a = .ok s'' → Steps S ok (n + 1) s s''

/-- A run whose steps all lower a potential is no longer than the potential that it starts with. -/
theorem Steps.le {HasPotential : σ → ℕ → Prop}
    (hlower : ∀ s a s' v, HasPotential s v → S.Allowed s a → ok s a → S.step s a = .ok s' →
      ∃ v' < v, HasPotential s' v')
    {n v : ℕ} {s s' : σ} (hsteps : S.Steps ok n s s') (h : HasPotential s v) :
    ∃ v', HasPotential s' v' ∧ n + v' ≤ v := by
  induction hsteps with
  | refl => exact ⟨v, h, (Nat.zero_add v).le⟩
  | step _ ha hok hs ih =>
    obtain ⟨v₁, hv₁, hle⟩ := ih h
    obtain ⟨v', hlt, hv'⟩ := hlower _ _ _ v₁ hv₁ ha hok hs
    exact ⟨v', hv', by omega⟩

end Lib.System
