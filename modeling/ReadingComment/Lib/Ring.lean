import Mathlib.Data.List.Basic
import Mathlib.Data.Nat.Bitwise
import Mathlib.Data.Nat.Size

/-!
# Rings of cells

A queue is kept in an array of cells, from a place on and around its end: the
`i`-th element is in cell `(head + i) mod n`. Elements are put behind the last
one, the first is taken away, and the ring is unrolled into a larger array.

The sizes of such arrays are powers of two; one is found from a number by
smearing its highest bit.
-/

namespace Lib

open List

variable {α : Type} {a : List (Option α)} {head : ℕ} {x : α} {xs : List α}

/-- The ring of cells `a` holds the elements `xs`, from the place `head` on. -/
structure InRing (a : List (Option α)) (head : ℕ) (xs : List α) : Prop where
  le : xs.length ≤ a.length
  lt : head < a.length
  cell : ∀ i y, xs[i]? = some y → a[(head + i) % a.length]? = some (some y)

namespace InRing

theorem new {n : ℕ} (hn : 0 < n) : InRing (List.replicate n (none : Option α)) 0 [] :=
  ⟨Nat.zero_le _, by simpa using hn, nofun⟩

theorem size_pos (h : InRing a head xs) : 0 < a.length := Nat.zero_lt_of_lt h.lt

/-- Different places of the queue are different cells. -/
theorem cell_ne {n i j : ℕ} (hij : i < j) (hj : j < n) : (head + i) % n ≠ (head + j) % n := by
  intro heq
  have hdvd : n ∣ (head + j) - (head + i) :=
    Nat.dvd_of_mod_eq_zero (Nat.sub_mod_eq_zero_of_mod_eq heq.symm)
  have hzero : (head + j) - (head + i) = 0 := Nat.eq_zero_of_dvd_of_lt hdvd (by omega)
  omega

theorem push (h : InRing a head xs) (hroom : xs.length < a.length) (x : α) :
    InRing (a.set ((head + xs.length) % a.length) (some x)) head (xs ++ [x]) := by
  refine ⟨?_, ?_, fun i y hy => ?_⟩
  · simpa using Nat.succ_le_of_lt hroom
  · simpa using h.lt
  · rw [length_set]
    rw [getElem?_append] at hy
    split at hy
    · rename_i hi
      rw [getElem?_set_ne (cell_ne hi hroom).symm]
      exact h.cell i y hy
    · obtain ⟨hi, rfl⟩ : i - xs.length = 0 ∧ x = y := by
        simpa [getElem?_singleton] using hy
      rw [show i = xs.length by omega, getElem?_set_self (Nat.mod_lt _ h.size_pos)]

/-- The first element is in the cell at the head. -/
theorem first (h : InRing a head (x :: xs)) : a[head]? = some (some x) := by
  have := h.cell 0 x rfl
  rwa [Nat.add_zero, Nat.mod_eq_of_lt h.lt] at this

theorem pop (h : InRing a head (x :: xs)) : InRing a ((head + 1) % a.length) xs := by
  have hlen := h.le
  rw [length_cons] at hlen
  refine ⟨Nat.le_of_succ_le hlen, Nat.mod_lt _ h.size_pos, fun i y hy => ?_⟩
  rw [Nat.mod_add_mod, Nat.add_assoc, Nat.add_comm 1 i]
  exact h.cell (i + 1) y hy

/-- The cells of a ring that does not go around the end. -/
theorem chunk (h : InRing a head xs) (hle : head + xs.length ≤ a.length) :
    (a.drop head).take xs.length = xs.map some := by
  refine ext_getElem? fun i => ?_
  rw [getElem?_map, getElem?_take]
  by_cases hi : i < xs.length
  · have hx : xs[i]? = some xs[i] := getElem?_eq_getElem hi
    have hcell := h.cell i _ hx
    rw [Nat.mod_eq_of_lt (by omega)] at hcell
    rw [if_pos hi, getElem?_drop, hcell, hx, Option.map_some]
  · rw [if_neg hi, getElem?_eq_none (Nat.le_of_not_lt hi), Option.map_none]

/-- The cells of a ring that goes around the end. -/
theorem chunks (h : InRing a head xs) (hle : a.length ≤ head + xs.length) :
    a.drop head ++ a.take (head + xs.length - a.length) = xs.map some := by
  have hhead := h.lt
  have hlen := h.le
  refine ext_getElem? fun i => ?_
  rw [getElem?_map, getElem?_append, length_drop, getElem?_drop,
    getElem?_take]
  by_cases hi : i < xs.length
  · have hx : xs[i]? = some xs[i] := getElem?_eq_getElem hi
    have hcell := h.cell i _ hx
    rw [hx, Option.map_some]
    by_cases hend : i < a.length - head
    · rw [Nat.mod_eq_of_lt (by omega)] at hcell
      rw [if_pos hend, hcell]
    · rw [Nat.mod_eq_sub_mod (by omega), Nat.mod_eq_of_lt (by omega)] at hcell
      rw [if_neg hend, if_pos (by omega), show i - (a.length - head) = head + i - a.length by omega,
        hcell]
  · rw [getElem?_eq_none (Nat.le_of_not_lt hi), Option.map_none, if_neg (by omega),
      if_neg (by omega)]

/-- The elements in the first cells of an array are a ring that starts at the first cell. -/
theorem unrolled (xs : List α) (rest : List (Option α)) (h : 0 < (xs.map some ++ rest).length) :
    InRing (xs.map some ++ rest) 0 xs := by
  refine ⟨by simp, h, fun i y hy => ?_⟩
  have hi : i < xs.length := (List.getElem?_eq_some_iff.mp hy).1
  rw [Nat.zero_add, Nat.mod_eq_of_lt (by simp; omega), getElem?_append_left (by simpa using hi),
    getElem?_map, hy]
  rfl

end InRing

/-! ## Powers of two -/

/-- `y` has the bits of `x`, each with the `s - 1` places below it. -/
def Smeared (x y s : ℕ) : Prop :=
  ∀ i, y.testBit i = true ↔ ∃ j, i ≤ j ∧ j < i + s ∧ x.testBit j = true

theorem Smeared.self (x : ℕ) : Smeared x x 1 := by
  intro i
  constructor
  · exact fun h => ⟨i, Nat.le_refl _, Nat.lt_succ_self _, h⟩
  · rintro ⟨j, hle, hlt, h⟩
    rwa [show i = j by omega]

theorem Smeared.double {x y s : ℕ} (h : Smeared x y s) : Smeared x (y ||| y >>> s) (2 * s) := by
  intro i
  rw [Nat.testBit_or, Nat.testBit_shiftRight, Bool.or_eq_true, h i, h (s + i)]
  constructor
  · rintro (⟨j, hle, hlt, hj⟩ | ⟨j, hle, hlt, hj⟩)
    · exact ⟨j, hle, by omega, hj⟩
    · exact ⟨j, by omega, by omega, hj⟩
  · rintro ⟨j, hle, hlt, hj⟩
    by_cases hj' : j < i + s
    · exact .inl ⟨j, hle, hj', hj⟩
    · exact .inr ⟨j, by omega, by omega, hj⟩

/-- Smeared over its whole length, a number is a power of two less one. -/
theorem Smeared.eq {x y s : ℕ} (h : Smeared x y s) (hx : x < 2 ^ s) : y = 2 ^ x.size - 1 := by
  refine Nat.eq_of_testBit_eq fun i => ?_
  rw [Nat.testBit_two_pow_sub_one, Bool.eq_iff_iff, decide_eq_true_iff, h i, Nat.lt_size]
  constructor
  · rintro ⟨j, hle, -, hj⟩
    exact (Nat.pow_le_pow_right (by decide) hle).trans (Nat.ge_two_pow_of_testBit hj)
  · intro hle
    obtain ⟨j, hj, hbit⟩ := Nat.exists_ge_and_testBit_of_ge_two_pow hle
    have hlt : j < s := (Nat.pow_lt_pow_iff_right (by decide)).mp
      ((Nat.ge_two_pow_of_testBit hbit).trans_lt hx)
    exact ⟨j, hj, by omega, hbit⟩

end Lib
