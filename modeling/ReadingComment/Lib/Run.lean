import Mathlib.Data.Option.Basic
import Mathlib.Logic.Function.Iterate
import Mathlib.Tactic.Choose

/-!
# Runs of a system driven by actions

A system has a start, a guard that says which actions its environment may take in
a state, and a step that may go wrong. `Reach ok` are the states that a run
reaches whose actions are all allowed and all meet a side condition `ok`; an
invariant is proved of them by `Reach.invariant` and a concrete run is replayed by
`Reach.run`.
-/

namespace Lib

/-- The first step of a computation that goes right. -/
theorem bind_eq_ok {ε α β : Type} {x : Except ε α} {f : α → Except ε β} {b : β}
    (h : x >>= f = .ok b) : ∃ a, x = .ok a ∧ f a = .ok b := by
  rcases x with e | a
  · cases h
  · exact ⟨a, rfl, h⟩

theorem map_eq_ok {ε α β : Type} {x : Except ε α} {f : α → β} {b : β} (h : f <$> x = .ok b) :
    ∃ a, x = .ok a ∧ f a = b := by
  rcases x with e | a
  · cases h
  · exact ⟨a, rfl, Except.ok.inj h⟩

theorem toOption_map_eq {ε α β : Type} {x : Except ε α} {f : α → β} {b : β}
    (h : x.toOption.map f = some b) : ∃ a, x = .ok a ∧ f a = b := by
  rcases x with e | a
  · cases h
  · exact ⟨a, rfl, Option.some.inj h⟩

/-- A system: where it starts, what may happen in a state, and what happens then. -/
structure System (σ α ε : Type) where
  init : σ
  Allowed : σ → α → Prop
  step : σ → α → Except ε σ

namespace System

variable {σ α ε : Type} (S : System σ α ε)

/-- The states that runs reach whose actions are allowed and all meet the condition `ok`. -/
inductive Reach (ok : σ → α → Prop) : σ → Prop where
  | init : Reach ok S.init
  | step {s s' : σ} {a : α} : Reach ok s → S.Allowed s a → ok s a → S.step s a = .ok s' →
    Reach ok s'

theorem Reach.next {S : System σ α ε} {ok : σ → α → Prop} {s s' : σ} (h : S.Reach ok s) (a : α)
    (ha : S.Allowed s a) (hok : ok s a) (hs : S.step s a = .ok s') : S.Reach ok s' :=
  h.step ha hok hs

/-- A run through a list of actions; it ends when one of them is not allowed, does not meet the
condition, or goes wrong. -/
def run (ok : σ → α → Prop) [∀ s a, Decidable (S.Allowed s a)] [∀ s a, Decidable (ok s a)] :
    List α → σ → Option σ
  | [], s => some s
  | a :: as, s =>
    if S.Allowed s a ∧ ok s a then
      match S.step s a with
      | .ok s' => run ok as s'
      | .error _ => none
    else none

variable {S} {ok : σ → α → Prop}

namespace Reach

/-- **The invariant rule**: what holds at the start and is kept by every step holds in every
state that a run reaches. -/
theorem invariant {Inv : σ → Prop} (h0 : Inv S.init)
    (hstep : ∀ s a s', Inv s → S.Allowed s a → ok s a → S.step s a = .ok s' → Inv s')
    {s : σ} (h : S.Reach ok s) : Inv s := by
  induction h with
  | init => exact h0
  | step _ hc hok hs ih => exact hstep _ _ _ ih hc hok hs

/-- What a list of actions leads to is reached. -/
theorem run [∀ s a, Decidable (S.Allowed s a)] [∀ s a, Decidable (ok s a)] {as : List α}
    {s s' : σ} (h : S.Reach ok s) (hrun : S.run ok as s = some s') : S.Reach ok s' := by
  induction as generalizing s with
  | nil =>
    cases hrun
    exact h
  | cons a as ih =>
    rw [System.run] at hrun
    split at hrun
    · rename_i hc
      split at hrun
      · rename_i s₁ hs
        exact ih (.step h hc.1 hc.2 hs) hrun
      · cases hrun
    · cases hrun

end Reach

/-- The system with a record of what has happened. -/
def record {η : Type} (S : System σ α ε) (h₀ : η) (note : σ → α → η → η) : System (σ × η) α ε where
  init := (S.init, h₀)
  Allowed s := S.Allowed s.1
  step s a := (S.step s.1 a).map fun s' => (s', note s.1 a s.2)

theorem Reach.record_step {η : Type} {h₀ : η} {note : σ → α → η → η} (c : σ → α → Prop) {s s' : σ}
    {a : α} {x : η} (h : (S.record h₀ note).Reach (fun s a => c s.1 a) (s, x))
    (ha : S.Allowed s a) (hc : c s a) (hs : S.step s a = .ok s') :
    (S.record h₀ note).Reach (fun s a => c s.1 a) (s', note s a x) := by
  refine .step h ha hc ?_
  change (S.step s a).map _ = _
  rw [hs]
  rfl

theorem Reach.record {η : Type} (h₀ : η) (note : σ → α → η → η) {s : σ} (h : S.Reach ok s) :
    ∃ x, (S.record h₀ note).Reach (fun s a => ok s.1 a) (s, x) := by
  induction h with
  | init => exact ⟨h₀, .init⟩
  | @step s s' a _ ha hok hs ih =>
    obtain ⟨x, hx⟩ := ih
    exact ⟨note s a x, hx.record_step ok ha hok hs⟩

/-- The invariant rule for a run with its record. -/
theorem Reach.record_invariant {η : Type} {h₀ : η} {note : σ → α → η → η} (c : σ → α → Prop)
    (Inv : σ → η → Prop) (h0 : Inv S.init h₀)
    (hstep : ∀ s x a s', Inv s x → S.Allowed s a → c s a → S.step s a = .ok s' →
      Inv s' (note s a x))
    {s : σ} {x : η} (h : (S.record h₀ note).Reach (fun s a => c s.1 a) (s, x)) : Inv s x := by
  have hinv : ∀ t, (S.record h₀ note).Reach (fun s a => c s.1 a) t → Inv t.1 t.2 := by
    intro t ht
    induction ht with
    | init => exact h0
    | @step t t' a _ ha hok hs ih =>
      change (S.step t.1 a).map _ = _ at hs
      cases hstep' : S.step t.1 a with
      | error e =>
        rw [hstep'] at hs
        cases hs
      | ok s' =>
        rw [hstep'] at hs
        cases hs
        exact hstep t.1 t.2 a s' ih ha hok hstep'
  exact hinv (s, x) h

/-- Where every state of a kind has a step to one of its kind, a run goes on for ever. -/
theorem exists_endless {Spins : σ → Prop}
    (h : ∀ s, Spins s → ∃ a s', S.Allowed s a ∧ S.step s a = .ok s' ∧ Spins s') {s : σ}
    (hs : Spins s) :
    ∃ run : ℕ → σ, run 0 = s ∧ ∀ n, ∃ a, S.Allowed (run n) a ∧
      S.step (run n) a = .ok (run (n + 1)) := by
  choose! a next hallowed hstep hspins using h
  have hrun : ∀ n, Spins (next^[n] s) := by
    intro n
    induction n with
    | zero => exact hs
    | succ n ih =>
      rw [Function.iterate_succ_apply']
      exact hspins _ ih
  refine ⟨fun n => next^[n] s, rfl, fun n => ⟨a _ (hrun n), hallowed _ (hrun n), ?_⟩⟩
  simp only [Function.iterate_succ_apply']
  exact hstep _ (hrun n)

theorem run_mono [∀ s a, Decidable (S.Allowed s a)] [∀ s a, Decidable (ok s a)]
    {ok' : σ → α → Prop} [∀ s a, Decidable (ok' s a)] (hok : ∀ s a, ok s a → ok' s a)
    {as : List α} {s s' : σ} (h : S.run ok as s = some s') : S.run ok' as s = some s' := by
  induction as generalizing s with
  | nil => exact h
  | cons a as ih =>
    rw [System.run] at h
    split at h
    · rename_i hc
      rw [System.run, if_pos ⟨hc.1, hok _ _ hc.2⟩]
      cases hs : S.step s a with
      | ok s₁ =>
        rw [hs] at h
        exact ih h
      | error e =>
        rw [hs] at h
        cases h
    · cases h

theorem run_concat [∀ s a, Decidable (S.Allowed s a)] [∀ s a, Decidable (ok s a)] {as : List α}
    {a : α} {s s₁ s₂ : σ} (h : S.run ok as s = some s₁) (ha : S.Allowed s₁ a) (hok : ok s₁ a)
    (hs : S.step s₁ a = .ok s₂) : S.run ok (as ++ [a]) s = some s₂ := by
  induction as generalizing s with
  | nil =>
    cases h
    rw [List.nil_append, System.run, if_pos ⟨ha, hok⟩, hs]
    rfl
  | cons b as ih =>
    rw [System.run] at h
    rw [List.cons_append, System.run]
    split at h
    · rename_i hc
      rw [if_pos hc]
      cases hb : S.step s b with
      | ok s' =>
        rw [hb] at h
        exact ih h
      | error e =>
        rw [hb] at h
        cases h
    · cases h

end System

end Lib
