import Mathlib.Data.Finset.Basic

/-!
# Paths of programs that lock

A program is what remains of a function when only its locks are looked at: it locks and unlocks,
tests what the locks do not depend on, repeats, and calls other functions. `Runs` are its paths from
the locks that are held: a test goes either way, a loop is left after any number of rounds, and the
functions that were given to the program are a program of their own. A path goes wrong at once where
it asks for a lock that is held, or gives back one that is not; locks are not recursive.

`Gives` computes what the locks are at the end of all paths. It follows the program, so that for a
program written out it is shown by `simp`; `Runs.ended` says that it is right.
-/

namespace Lib

variable {κ : Type} [DecidableEq κ]

/-- A program, as far as locks are concerned. -/
inductive LockProgram (κ : Type) where
  | ret
  /-- a wait for a lock may be ended by a signal -/
  | lock (l : κ) (interrupted next : LockProgram κ)
  | unlock (l : κ) (next : LockProgram κ)
  | test (yes no : LockProgram κ)
  | loop (body next : LockProgram κ)
  | call (f next : LockProgram κ)
  /-- one of the functions that were given to the program is called -/
  | user (next : LockProgram κ)

/-- How a path ends. -/
inductive LockOutcome (κ : Type) where
  /-- it asks for a lock that is held -/
  | relocked
  /-- it gives back a lock that is not held -/
  | notHeld
  | ended (held : Finset κ)

namespace LockProgram

open LockOutcome

/-- The paths of a program from the locks that are held, where the functions that were given to it
have the paths of `u`. -/
inductive Runs (u : LockProgram κ) : LockProgram κ → Finset κ → LockOutcome κ → Prop
  | ret {h : Finset κ} : Runs u ret h (ended h)
  | relocked {l : κ} {a n : LockProgram κ} {h : Finset κ} : l ∈ h → Runs u (lock l a n) h relocked
  | interrupted {l : κ} {a n : LockProgram κ} {h : Finset κ} {o : LockOutcome κ} :
    l ∉ h → Runs u a h o → Runs u (lock l a n) h o
  | locked {l : κ} {a n : LockProgram κ} {h : Finset κ} {o : LockOutcome κ} :
    l ∉ h → Runs u n (insert l h) o → Runs u (lock l a n) h o
  | notHeld {l : κ} {n : LockProgram κ} {h : Finset κ} : l ∉ h → Runs u (unlock l n) h notHeld
  | unlocked {l : κ} {n : LockProgram κ} {h : Finset κ} {o : LockOutcome κ} :
    l ∈ h → Runs u n (h.erase l) o → Runs u (unlock l n) h o
  | yes {a b : LockProgram κ} {h : Finset κ} {o : LockOutcome κ} :
    Runs u a h o → Runs u (test a b) h o
  | no {a b : LockProgram κ} {h : Finset κ} {o : LockOutcome κ} :
    Runs u b h o → Runs u (test a b) h o
  | leave {b n : LockProgram κ} {h : Finset κ} {o : LockOutcome κ} :
    Runs u n h o → Runs u (loop b n) h o
  | again {b n : LockProgram κ} {h h' : Finset κ} {o : LockOutcome κ} :
    Runs u b h (ended h') → Runs u (loop b n) h' o → Runs u (loop b n) h o
  | called {f n : LockProgram κ} {h h' : Finset κ} {o : LockOutcome κ} :
    Runs u f h (ended h') → Runs u n h' o → Runs u (call f n) h o
  | used {n : LockProgram κ} {h h' : Finset κ} {o : LockOutcome κ} :
    Runs u u h (ended h') → Runs u n h' o → Runs u (user n) h o
  /-- what is called goes wrong -/
  | wrong {c f : LockProgram κ} {h : Finset κ} {o : LockOutcome κ} :
    (∃ n, c = loop f n ∨ c = call f n ∨ c = user n ∧ f = u) → (∀ h', o ≠ ended h') →
      Runs u f h o → Runs u c h o

/-- On no path does the program ask for a lock that is held, and at the end of each it has given
back exactly what it has taken. -/
def Balanced (u c : LockProgram κ) (held : Finset κ) : Prop :=
  ∀ o, Runs u c held o → o = ended held

/-- The locks are `t` at the end of every path. -/
def Gives (u : LockProgram κ) : LockProgram κ → Finset κ → Finset κ → Prop
  | ret, held, t => held = t
  | lock l a n, held, t => l ∉ held ∧ Gives u a held t ∧ Gives u n (insert l held) t
  | unlock l n, held, t => l ∈ held ∧ Gives u n (held.erase l) t
  | test a b, held, t => Gives u a held t ∧ Gives u b held t
  | loop b n, held, t => Gives u b held held ∧ Gives u n held t
  | call f n, held, t => Gives u f held held ∧ Gives u n held t
  | user n, held, t => Balanced u u held ∧ Gives u n held t

variable {u c : LockProgram κ} {held t : Finset κ} {o : LockOutcome κ}

/-- **Every path ends with the locks that `Gives` says.** -/
theorem Runs.ended (hr : Runs u c held o) (h : Gives u c held t) : o = ended t := by
  induction hr generalizing t with
  | ret => rw [show _ = t from h]
  | relocked hl => exact absurd hl h.1
  | interrupted _ _ ih => exact ih h.2.1
  | locked _ _ ih => exact ih h.2.2
  | notHeld hl => exact absurd h.1 hl
  | unlocked _ _ ih => exact ih h.2
  | yes _ ih => exact ih h.1
  | no _ ih => exact ih h.2
  | leave _ ih => exact ih h.2
  | again _ _ ihbody ihloop =>
    obtain rfl := LockOutcome.ended.inj (ihbody h.1)
    exact ihloop h
  | called _ _ ihf ihn =>
    obtain rfl := LockOutcome.ended.inj (ihf h.1)
    exact ihn h.2
  | used hu _ _ ihn =>
    obtain rfl := LockOutcome.ended.inj (h.1 _ hu)
    exact ihn h.2
  | wrong hc ho hf ih =>
    obtain ⟨n, rfl | rfl | ⟨rfl, rfl⟩⟩ := hc
    · exact absurd (ih h.1) (ho _)
    · exact absurd (ih h.1) (ho _)
    · exact absurd (h.1 _ hf) (ho _)

end LockProgram

end Lib
