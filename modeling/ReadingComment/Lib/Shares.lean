import Mathlib.Algebra.BigOperators.Group.List.Basic
import Mathlib.Algebra.GroupWithZero.Nat
import Mathlib.Data.List.Range

/-!
# Shares of a number

A number is divided among so many: each gets the quotient, and the first ones get one more
while the remainder lasts.
-/

namespace Shares

open List

/-- What the `i`-th of `t` gets of `n`. -/
def share (n t i : ℕ) : ℕ := n / t + if i < n % t then 1 else 0

variable {n m t i : ℕ}

theorem sum_first (h : n ≤ t) : ((List.range t).map fun i => if i < n then 1 else 0).sum = n := by
  induction t with
  | zero => exact (Nat.le_zero.mp h).symm
  | succ t ih =>
    rw [range_succ, map_append, sum_append, map_singleton, sum_singleton]
    rcases h.eq_or_lt with rfl | hlt
    · -- everybody gets one
      have hall : ((List.range t).map fun i => if i < t + 1 then 1 else 0).sum = t := by
        rw [map_congr_left (g := fun _ => 1), map_const',
          sum_replicate_nat, length_range, mul_one]
        intro i hi
        exact if_pos (Nat.lt_succ_of_lt (mem_range.mp hi))
      rw [hall, if_pos (Nat.lt_succ_self t)]
    · rw [ih (Nat.le_of_lt_succ hlt), if_neg (Nat.not_lt.mpr (Nat.le_of_lt_succ hlt))]
      rfl

/-- **The shares come to the number.** -/
theorem sum_share (ht : 0 < t) : ((List.range t).map (share n t)).sum = n := by
  have hsplit : ((List.range t).map (share n t)).sum =
      ((List.range t).map fun _ => n / t).sum +
        ((List.range t).map fun i => if i < n % t then 1 else 0).sum := sum_map_add
  rw [hsplit, sum_first (Nat.mod_lt n ht).le, map_const',
    sum_replicate_nat, length_range]
  exact Nat.div_add_mod n t

theorem share_mono (h : n ≤ m) (t i : ℕ) : share n t i ≤ share m t i := by
  have hdiv := Nat.div_le_div_right (c := t) h
  rw [share, share]
  rcases hdiv.eq_or_lt with heq | hlt
  · -- with the same quotient, the remainder is larger
    have hn := Nat.div_add_mod n t
    have hm := Nat.div_add_mod m t
    rw [heq] at hn
    split <;> split <;> omega
  · split <;> split <;> omega

theorem share_pos (ht : 0 < t) (h : t ≤ n) (i : ℕ) : 0 < share n t i :=
  Nat.add_pos_left (Nat.div_pos h ht) _

end Shares
