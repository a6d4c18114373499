import Mathlib.Data.List.Infix
import Mathlib.Data.Nat.Find

/-!
# Bytes

Memory and files as lists of bytes, and the first occurrence of a key in a list, as `memmem` finds
it.
-/

namespace Lib

open List

protected abbrev Bytes : Type := List UInt8

variable {α : Type} [DecidableEq α]

/-- Where a key first occurs. -/
def find (key : List α) : List α → Option ℕ
  | [] => if key = [] then some 0 else none
  | c :: cs => if key <+: c :: cs then some 0 else (find key cs).map (· + 1)

theorem find_eq_none {key s : List α} (h : find key s = none) : ¬ key <:+: s := by
  induction s with
  | nil =>
    rw [find] at h
    split at h
    · cases h
    · rename_i hne
      rwa [infix_nil]
  | cons c cs ih =>
    rw [find] at h
    split at h
    · cases h
    · rename_i hnot
      rw [infix_cons_iff]
      exact not_or.mpr ⟨hnot, ih (Option.map_eq_none_iff.mp h)⟩

/-- **The first occurrence** splits the list, and no other one begins before it. -/
theorem find_eq_some {key s : List α} {i : ℕ} (h : find key s = some i) :
    s = s.take i ++ key ++ s.drop (i + key.length) ∧ i ≤ s.length ∧
      ∀ a b, s = a ++ key ++ b → i ≤ a.length := by
  induction s generalizing i with
  | nil =>
    rw [find] at h
    split at h
    · rename_i hkey
      cases h
      rw [hkey]
      exact ⟨rfl, Nat.le_refl 0, fun _ _ _ => Nat.zero_le _⟩
    · cases h
  | cons c cs ih =>
    rw [find] at h
    split at h
    · rename_i hprefix
      cases h
      refine ⟨?_, Nat.zero_le _, fun _ _ _ => Nat.zero_le _⟩
      rw [take_zero, nil_append, Nat.zero_add]
      exact (prefix_iff_eq_append.mp hprefix).symm
    · rename_i hnot
      obtain ⟨j, hj, rfl⟩ := Option.map_eq_some_iff.mp h
      obtain ⟨hsplit, hle, hfirst⟩ := ih hj
      refine ⟨?_, Nat.succ_le_succ hle, ?_⟩
      · rw [take_succ_cons, Nat.add_right_comm, drop_succ_cons, cons_append,
          cons_append]
        exact congrArg _ hsplit
      · intro a b heq
        cases a with
        | nil => exact absurd ⟨b, heq.symm⟩ hnot
        | cons d a => exact Nat.succ_le_succ (hfirst a b (List.cons.inj heq).2)

end Lib
