import Mathlib.Algebra.Order.Group.Int
import Mathlib.Data.List.Perm.Basic
import Mathlib.Data.List.Pairwise

/-!
# Arrays that a comparison function keeps in order

A comparison function answers with a sign. The library has the two loops that a
program without a library of its own writes over an array of elements: the binary
search that ends at an equal element or at the place where one would stand
(`bisect`), and the selection sort that swaps the smallest element of the rest to
the front (`ssort`). An array is a list that may be longer than the part in use.
-/

namespace Ordered

open scoped List

variable {α : Type}

/-- The comparison function of a total preorder. -/
structure TotalPreorder (cmp : α → α → ℤ) : Prop where
  swap : ∀ a b, cmp a b < 0 ↔ 0 < cmp b a
  trans : ∀ a b c, cmp a b ≤ 0 → cmp b c ≤ 0 → cmp a c ≤ 0

namespace TotalPreorder

variable {cmp : α → α → ℤ} (h : TotalPreorder cmp)

include h

theorem nonneg_iff (a b : α) : 0 ≤ cmp a b ↔ cmp b a ≤ 0 := by
  rw [← not_lt, h.swap, not_lt]

theorem nonpos_of_pos {a b : α} (hab : 0 < cmp a b) : cmp b a ≤ 0 :=
  ((h.swap b a).mpr hab).le

/-- What is strictly before an element is strictly before all that follow it. -/
theorem lt_of_lt_of_le {a b c : α} (hab : cmp a b < 0) (hbc : cmp b c ≤ 0) : cmp a c < 0 := by
  rw [h.swap, ← not_le]
  intro hca
  have := h.trans b c a hbc hca
  rw [h.swap] at hab
  omega

theorem lt_of_le_of_lt {a b c : α} (hab : cmp a b ≤ 0) (hbc : cmp b c < 0) : cmp a c < 0 := by
  rw [h.swap, ← not_le]
  intro hca
  have := h.trans c a b hca hab
  rw [h.swap] at hbc
  omega

end TotalPreorder

/-- The array is in order. -/
def Sorted (cmp : α → α → ℤ) (a : List α) : Prop := a.Pairwise fun x y => cmp x y ≤ 0

/-! ## Binary search -/

/-- The loop of a binary search between `low` and `hi`, the latter not included: it looks at the
middle, and goes on before it when the answer is negative and behind it when it is positive. The
result is the last place it looked at and the answer there. -/
def bisect (f : α → ℤ) (a : List α) : ℕ → ℕ → ℕ → Option (ℕ × ℤ)
  | 0, _, _ => none
  | fuel + 1, low, hi =>
    let cur := (low + hi - 1) / 2
    match a[cur]? with
    | none => none
    | some x =>
      let hi' := if f x < 0 then cur else hi
      let low' := if 0 < f x then cur + 1 else low
      if f x ≠ 0 ∧ low' < hi' then bisect f a fuel low' hi' else some (cur, f x)
attribute [local simp] bisect

/-- The answers go from positive through zero to negative. -/
def Descends (f : α → ℤ) (a : List α) : Prop :=
  ∀ (i j : ℕ) (x y : α), i < j → a[i]? = some x → a[j]? = some y →
    (f x < 0 → f y < 0) ∧ (0 < f y → 0 < f x)

variable {a : List α} {n : ℕ}

/-- Looking for a value in an array that is in order. -/
theorem Sorted.descends {cmp : α → α → ℤ} (h : TotalPreorder cmp) (ha : Sorted cmp a) (v : α) :
    Descends (cmp v) a := by
  intro i j x y hij hx hy
  obtain ⟨hi, rfl⟩ := List.getElem?_eq_some_iff.mp hx
  obtain ⟨hj, rfl⟩ := List.getElem?_eq_some_iff.mp hy
  have hle : cmp a[i] a[j] ≤ 0 := List.pairwise_iff_getElem.mp ha i j hi hj hij
  refine ⟨fun hv => h.lt_of_lt_of_le hv hle, fun hv => ?_⟩
  rw [← h.swap] at hv ⊢
  exact h.lt_of_le_of_lt hle hv

/-- What the loop finds among the first `n` entries: when the last answer is negative everything
before the place is positive, and when it is positive everything behind it is negative. -/
theorem bisect_spec {f : α → ℤ} (hf : Descends f (a.take n)) (hn : n ≤ a.length) {fuel low hi : ℕ}
    (hlt : low < hi) (hhi : hi ≤ n) (hfuel : hi - low ≤ fuel)
    (hlow : ∀ i < low, ∀ x, a[i]? = some x → 0 < f x)
    (hhigh : ∀ i, hi ≤ i → i < n → ∀ x, a[i]? = some x → f x < 0) :
    ∃ c x, bisect f a fuel low hi = some (c, f x) ∧ c < n ∧ a[c]? = some x ∧
      (f x < 0 → ∀ i < c, ∀ y, a[i]? = some y → 0 < f y) ∧
      (0 < f x → ∀ i, c < i → i < n → ∀ y, a[i]? = some y → f y < 0) := by
  have hf' : ∀ (i j : ℕ) (x y : α), i < j → j < n → a[i]? = some x → a[j]? = some y →
      (f x < 0 → f y < 0) ∧ (0 < f y → 0 < f x) := by
    intro i j x y hij hjn hx hy
    apply hf i j x y hij
    · rw [List.getElem?_take_of_lt (hij.trans hjn)]
      exact hx
    · rw [List.getElem?_take_of_lt hjn]
      exact hy
  induction fuel generalizing low hi with
  | zero => omega
  | succ fuel ih =>
    obtain ⟨cur, hcur⟩ : ∃ cur, cur = (low + hi - 1) / 2 := ⟨_, rfl⟩
    have hlc : low ≤ cur := by omega
    have hch : cur < hi := by omega
    obtain ⟨x, hx⟩ : ∃ x, a[cur]? = some x := ⟨_, List.getElem?_eq_getElem (by omega)⟩
    rw [bisect]
    simp only [← hcur, hx]
    rcases lt_trichotomy (f x) 0 with hneg | hzero | hpos
    · -- go on before the middle
      have hpos' : ¬ 0 < f x := by omega
      rw [if_pos hneg, if_neg hpos']
      split
      · rename_i hgo
        apply ih hgo.2 (by omega) (by omega) hlow
        intro i hi' hin y hy
        rcases Nat.lt_or_eq_of_le hi' with hlt' | rfl
        · exact (hf' cur i x y hlt' hin hx hy).1 hneg
        · rw [hx] at hy
          cases hy
          exact hneg
      · refine ⟨cur, x, rfl, by omega, hx, fun _ i hi' y hy => hlow i (by omega) y hy, ?_⟩
        intro h
        omega
    · rw [if_neg fun h => h.1 hzero]
      exact ⟨cur, x, rfl, by omega, hx, fun h => by omega, fun h => by omega⟩
    · -- go on behind it
      have hneg' : ¬ f x < 0 := by omega
      rw [if_neg hneg', if_pos hpos]
      split
      · rename_i hgo
        refine ih hgo.2 hhi (by omega) ?_ hhigh
        intro i hi' y hy
        rcases Nat.lt_or_eq_of_le (Nat.le_of_lt_succ hi') with hlt' | rfl
        · exact (hf' i cur y x hlt' (by omega) hy hx).2 hpos
        · rw [hx] at hy
          cases hy
          exact hpos
      · refine ⟨cur, x, rfl, by omega, hx, fun h => by omega, ?_⟩
        exact fun _ i hi' hin y hy => hhigh i (by omega) hin y hy

/-- The place where a value belongs among the first `n` entries, which are in order: behind the last
place that was looked at when the value is greater, and at it otherwise. -/
theorem bisect_place {cmp : α → α → ℤ} (h : TotalPreorder cmp) (hn : n ≤ a.length) (hpos : 0 < n)
    (hs : Sorted cmp (a.take n)) (v : α) :
    ∃ c x pos, bisect (cmp v) a (n + 1) 0 n = some (c, cmp v x) ∧ c < n ∧ a[c]? = some x ∧
      pos = (if 0 < cmp v x then c + 1 else c) ∧
      (∀ i < pos, ∀ y, a[i]? = some y → 0 ≤ cmp v y) ∧
      (∀ i, pos ≤ i → i < n → ∀ y, a[i]? = some y → cmp v y ≤ 0) ∧
      (cmp v x ≠ 0 → ∀ i < n, ∀ y, a[i]? = some y → cmp v y ≠ 0) := by
  have hd := hs.descends h v
  obtain ⟨c, x, hbis, hc, hx, hneg, hposi⟩ := bisect_spec hd hn hpos (Nat.le_refl n)
    (Nat.le_succ n) (fun i hi => absurd hi (Nat.not_lt_zero i))
    (fun i hi hin => absurd hin (Nat.not_lt.mpr hi))
  -- the entries in order, by their places
  have hd' : ∀ (i j : ℕ) (x y : α), i < j → j < n → a[i]? = some x → a[j]? = some y →
      (cmp v x < 0 → cmp v y < 0) ∧ (0 < cmp v y → 0 < cmp v x) := by
    intro i j x y hij hjn hx hy
    apply hd i j x y hij
    · rw [List.getElem?_take_of_lt (hij.trans hjn)]
      exact hx
    · rw [List.getElem?_take_of_lt hjn]
      exact hy
  have hbefore : ∀ i < c, ∀ y, a[i]? = some y → 0 ≤ cmp v y ∧ (cmp v x ≠ 0 → 0 < cmp v y) := by
    intro i hi y hy
    have hxy := hd' i c y x hi hc hy hx
    rcases lt_trichotomy (cmp v x) 0 with hlt | heq | hgt
    · have := hneg hlt i hi y hy
      omega
    · omega
    · have := hxy.2 hgt
      omega
  have hbehind : ∀ i, c < i → i < n → ∀ y, a[i]? = some y →
      cmp v y ≤ 0 ∧ (cmp v x ≠ 0 → cmp v y < 0) := by
    intro i hi hin y hy
    have hxy := hd' c i x y hi hin hx hy
    rcases lt_trichotomy (cmp v x) 0 with hlt | heq | hgt
    · have := hxy.1 hlt
      omega
    · omega
    · have := hposi hgt i hi hin y hy
      omega
  have hhere : ∀ y, a[c]? = some y → y = x := fun y hy => Option.some.inj (hy.symm.trans hx)
  refine ⟨c, x, _, hbis, hc, hx, rfl, ?_, ?_, ?_⟩
  · intro i hi y hy
    rcases Nat.lt_trichotomy i c with hlt | rfl | hgt
    · exact (hbefore i hlt y hy).1
    · rw [hhere y hy]
      split at hi <;> omega
    · split at hi <;> omega
  · intro i hi hin y hy
    rcases Nat.lt_trichotomy i c with hlt | rfl | hgt
    · split at hi <;> omega
    · rw [hhere y hy]
      split at hi <;> omega
    · exact (hbehind i hgt hin y hy).1
  · intro hne i hin y hy
    rcases Nat.lt_trichotomy i c with hlt | rfl | hgt
    · have := (hbefore i hlt y hy).2 hne
      omega
    · rw [hhere y hy]
      exact hne
    · have := (hbehind i hgt hin y hy).2 hne
      omega

/-- Whatever the answers are, the loop ends within the entries. -/
theorem bisect_total (f : α → ℤ) (hn : n ≤ a.length) {fuel low hi : ℕ} (hlt : low < hi)
    (hhi : hi ≤ n) (hfuel : hi - low ≤ fuel) :
    ∃ c d, bisect f a fuel low hi = some (c, d) ∧ c < n := by
  induction fuel generalizing low hi with
  | zero => omega
  | succ fuel ih =>
    obtain ⟨cur, hcur⟩ : ∃ cur, cur = (low + hi - 1) / 2 := ⟨_, rfl⟩
    obtain ⟨x, hx⟩ : ∃ x, a[cur]? = some x := ⟨_, List.getElem?_eq_getElem (by omega)⟩
    rw [bisect]
    simp only [← hcur, hx]
    obtain ⟨low', hlow'⟩ : ∃ low', low' = if 0 < f x then cur + 1 else low := ⟨_, rfl⟩
    obtain ⟨hi', hhi'⟩ : ∃ hi', hi' = if f x < 0 then cur else hi := ⟨_, rfl⟩
    rw [← hlow', ← hhi']
    split
    · rename_i hgo
      have hnot : f x < 0 ∨ 0 < f x := lt_or_gt_of_ne hgo.1
      apply ih hgo.2
      · split at hhi' <;> omega
      · split at hhi' <;> split at hlow' <;> omega
    · exact ⟨cur, f x, rfl, by omega⟩

/-- The answer is one about the entry at the place. -/
theorem bisect_answer {f : α → ℤ} {fuel low hi c : ℕ} {d : ℤ}
    (h : bisect f a fuel low hi = some (c, d)) : ∃ x, a[c]? = some x ∧ d = f x := by
  induction fuel generalizing low hi with
  | zero => cases h
  | succ fuel ih =>
    rw [bisect] at h
    cases hx : a[(low + hi - 1) / 2]? with
    | none => simp [hx] at h
    | some x =>
      simp only [hx] at h
      obtain ⟨low', hlow'⟩ : ∃ low', low' = if 0 < f x then (low + hi - 1) / 2 + 1 else low :=
        ⟨_, rfl⟩
      obtain ⟨hi', hhi'⟩ : ∃ hi', hi' = if f x < 0 then (low + hi - 1) / 2 else hi := ⟨_, rfl⟩
      rw [← hlow', ← hhi'] at h
      split at h
      · exact ih h
      · cases h
        exact ⟨x, hx, rfl⟩

/-- The loop depends on the answers about the entries only. -/
theorem bisect_congr {f g : α → ℤ} (h : ∀ x ∈ a, f x = g x) (fuel low hi : ℕ) :
    bisect f a fuel low hi = bisect g a fuel low hi := by
  induction fuel generalizing low hi with
  | zero => rfl
  | succ fuel ih =>
    rw [bisect, bisect]
    cases hx : a[(low + hi - 1) / 2]? with
    | none => simp only
    | some x => simp only [h x (List.mem_of_getElem? hx), ih]

/-- The loop looks at places before the upper bound only. -/
theorem bisect_congr_before {f g : α → ℤ} (h : ∀ i < n, ∀ x, a[i]? = some x → f x = g x) (fuel : ℕ)
    {low hi : ℕ} (hlt : low < hi) (hhi : hi ≤ n) :
    bisect f a fuel low hi = bisect g a fuel low hi := by
  induction fuel generalizing low hi with
  | zero => rfl
  | succ fuel ih =>
    rw [bisect, bisect]
    cases hx : a[(low + hi - 1) / 2]? with
    | none => simp only
    | some x =>
      simp only [h _ (by omega) x hx]
      refine ite_congr rfl (fun hgo => ih hgo.2 ?_) fun _ => rfl
      split <;> omega

/-- A new element put where everything before it is not greater and everything behind it is not
smaller. -/
theorem Sorted.insert {cmp : α → α → ℤ} {a b : List α} {v : α}
    (hab : Sorted cmp (a ++ b)) (ha : ∀ x ∈ a, cmp x v ≤ 0) (hb : ∀ x ∈ b, cmp v x ≤ 0) :
    Sorted cmp (a ++ v :: b) := by
  obtain ⟨h₁, h₂, h₃⟩ := List.pairwise_append.mp hab
  refine List.pairwise_append.mpr ⟨h₁, List.pairwise_cons.mpr ⟨hb, h₂⟩, ?_⟩
  intro x hx y hy
  rcases List.mem_cons.mp hy with rfl | hy
  · exact ha x hx
  · exact h₃ x hx y hy

/-- What is around a part of an array is where it belongs, whatever the order in the part is. -/
structure Around (cmp : α → α → ℤ) (front part back : List α) : Prop where
  front_sorted : Sorted cmp front
  back_sorted : Sorted cmp back
  front_le : ∀ x ∈ front, ∀ y ∈ part ++ back, cmp x y ≤ 0
  le_back : ∀ x ∈ part, ∀ y ∈ back, cmp x y ≤ 0

/-- An array of which a part was put in order is in order if and only if the rest is where it
belongs. -/
theorem sorted_around_iff {cmp : α → α → ℤ} {front part part' back : List α}
    (hperm : part'.Perm part) (hs : Sorted cmp part') :
    Sorted cmp (front ++ (part' ++ back)) ↔ Around cmp front part back := by
  have hmem :
      ∀ y, y ∈ part' ++ back ↔ y ∈ part ++ back := fun y => (hperm.append_right back).mem_iff
  constructor
  · intro h
    obtain ⟨hfront, hrest, hle⟩ := List.pairwise_append.mp h
    obtain ⟨-, hback, hpart⟩ := List.pairwise_append.mp hrest
    refine ⟨hfront, hback, ?_, ?_⟩
    · exact fun x hx y hy => hle x hx y ((hmem y).mpr hy)
    · exact fun x hx y hy => hpart x (hperm.mem_iff.mpr hx) y hy
  · intro h
    have hrest : Sorted cmp (part' ++ back) := by
      refine List.pairwise_append.mpr ⟨hs, h.back_sorted, ?_⟩
      exact fun x hx y hy => h.le_back x (hperm.mem_iff.mp hx) y hy
    refine List.pairwise_append.mpr ⟨h.front_sorted, hrest, ?_⟩
    exact fun x hx y hy => h.front_le x hx y ((hmem y).mp hy)

/-! ## Selection sort -/

/-- The inner loop: the place of the smallest element, the candidate's place being `best`. -/
def smallest (cmp : α → α → ℤ) : α → ℕ → ℕ → List α → ℕ
  | _, best, _, [] => best
  | b, best, cur, x :: xs =>
    if 0 < cmp b x then smallest cmp x cur (cur + 1) xs else smallest cmp b best (cur + 1) xs

/-- The outer loop, over the first `n` positions: the smallest element of the rest and its first
element are swapped. -/
def ssort (cmp : α → α → ℤ) : ℕ → List α → List α
  | 0, l => l
  | _ + 1, [] => []
  | n + 1, x :: xs =>
    match smallest cmp x 0 1 xs with
    | 0 => x :: ssort cmp n xs
    | j + 1 => xs.getD j x :: ssort cmp n (xs.set j x)

/-- The inner loop ends at the candidate or at an element behind it, and nothing is smaller. -/
theorem smallest_spec {cmp : α → α → ℤ} (h : TotalPreorder cmp) (b : α) (best cur : ℕ)
    (xs : List α) :
    (smallest cmp b best cur xs = best ∧ ∀ z ∈ xs, cmp b z ≤ 0) ∨
    (∃ j y, smallest cmp b best cur xs = cur + j ∧ xs[j]? = some y ∧ cmp y b ≤ 0 ∧
      ∀ z ∈ xs, cmp y z ≤ 0) := by
  induction xs generalizing b best cur with
  | nil =>
    refine .inl ⟨rfl, ?_⟩
    intro z hz
    cases hz
  | cons x xs ih =>
    rw [smallest]
    split
    · rename_i hbx
      have hxb := h.nonpos_of_pos hbx
      have hxx : cmp x x ≤ 0 := by
        rw [← not_lt, ← h.swap]
        have := h.swap x x
        omega
      rcases ih x cur (cur + 1) with ⟨heq, hall⟩ | ⟨j, y, heq, hj, hyx, hall⟩
      · refine .inr ⟨0, x, heq, rfl, hxb, ?_⟩
        intro z hz
        rcases List.mem_cons.mp hz with rfl | hz
        · exact hxx
        · exact hall z hz
      · refine .inr ⟨j + 1, y, by omega, hj, h.trans y x b hyx hxb, ?_⟩
        intro z hz
        rcases List.mem_cons.mp hz with rfl | hz
        · exact hyx
        · exact hall z hz
    · rename_i hbx
      rcases ih b best (cur + 1) with ⟨heq, hall⟩ | ⟨j, y, heq, hj, hyb, hall⟩
      · refine .inl ⟨heq, ?_⟩
        intro z hz
        rcases List.mem_cons.mp hz with rfl | hz
        · omega
        · exact hall z hz
      · refine .inr ⟨j + 1, y, by omega, hj, hyb, ?_⟩
        intro z hz
        rcases List.mem_cons.mp hz with rfl | hz
        · exact h.trans y b z hyb (by omega)
        · exact hall z hz

/-- The swap of the first element with one behind it. -/
theorem perm_swap {x y : α} {xs : List α} {j : ℕ} (hj : xs[j]? = some y) :
    (y :: xs.set j x).Perm (x :: xs) := by
  obtain ⟨hlt, rfl⟩ := List.getElem?_eq_some_iff.mp hj
  have hsplit : xs = xs.take j ++ xs[j] :: xs.drop (j + 1) := by
    rw [← List.drop_eq_getElem_cons hlt, List.take_append_drop]
  rw [List.set_eq_take_append_cons_drop, if_pos hlt]
  calc xs[j] :: (xs.take j ++ x :: xs.drop (j + 1))
      _ ~ xs[j] :: x :: (xs.take j ++ xs.drop (j + 1)) := List.perm_middle.cons _
      _ ~ x :: xs[j] :: (xs.take j ++ xs.drop (j + 1)) := List.Perm.swap ..
      _ ~ x :: (xs.take j ++ xs[j] :: xs.drop (j + 1)) := List.perm_middle.symm.cons _
      _ = x :: xs := by rw [← hsplit]

theorem length_ssort (cmp : α → α → ℤ) (n : ℕ) (l : List α) :
    (ssort cmp n l).length = l.length := by
  induction n generalizing l with
  | zero => rfl
  | succ n ih =>
    cases l with
    | nil => rfl
    | cons x xs =>
      rw [ssort]
      split
      · rw [List.length_cons, List.length_cons, ih]
      · rw [List.length_cons, List.length_cons, ih, List.length_set]

theorem ssort_spec {cmp : α → α → ℤ} (h : TotalPreorder cmp) {l : List α} (hn : l.length ≤ n + 1) :
    (ssort cmp n l).Perm l ∧ Sorted cmp (ssort cmp n l) := by
  induction n generalizing l with
  | zero =>
    refine ⟨List.Perm.refl _, ?_⟩
    match l, hn with
    | [], _ => exact List.Pairwise.nil
    | [x], _ => exact List.pairwise_singleton _ x
  | succ n ih =>
    cases l with
    | nil => exact ⟨List.Perm.refl _, List.Pairwise.nil⟩
    | cons x xs =>
      rw [List.length_cons] at hn
      rw [ssort]
      rcases smallest_spec h x 0 1 xs with ⟨heq, hall⟩ | ⟨j, y, heq, hj, hyx, hall⟩
      · rw [heq]
        obtain ⟨hp, hs⟩ := ih (l := xs) (by omega)
        refine ⟨hp.cons x, List.pairwise_cons.mpr ⟨?_, hs⟩⟩
        exact fun z hz => hall z (hp.mem_iff.mp hz)
      · rw [heq, Nat.add_comm 1 j]
        obtain ⟨hp, hs⟩ := ih (l := xs.set j x) (by rw [List.length_set]; omega)
        have hy : xs.getD j x = y := by rw [List.getD_eq_getElem?_getD, hj, Option.getD_some]
        simp only [hy]
        refine ⟨(hp.cons y).trans (perm_swap hj), List.pairwise_cons.mpr ⟨?_, hs⟩⟩
        intro z hz
        rcases List.mem_or_eq_of_mem_set (hp.mem_iff.mp hz) with hz | rfl
        · exact hall z hz
        · exact hyx

section

variable {f g : α → α → ℤ} {P : α → Prop} (h : ∀ x y, P x → P y → f x y = g x y)

include h

theorem smallest_congr {b : α} (hb : P b) (best cur : ℕ) {xs : List α} (hxs : ∀ x ∈ xs, P x) :
    smallest f b best cur xs = smallest g b best cur xs := by
  induction xs generalizing b best cur with
  | nil => rfl
  | cons x xs ih =>
    have hx := hxs x List.mem_cons_self
    have htail := fun y hy => hxs y (List.mem_cons_of_mem x hy)
    rw [smallest, smallest, h b x hb hx, ih hx cur (cur + 1) htail, ih hb best (cur + 1) htail]

/-- The sort depends on the answers about the elements only. -/
theorem ssort_congr (n : ℕ) {l : List α} (hl : ∀ x ∈ l, P x) : ssort f n l = ssort g n l := by
  induction n generalizing l with
  | zero => rfl
  | succ n ih =>
    cases l with
    | nil => rfl
    | cons x xs =>
      have hx := hl x List.mem_cons_self
      have htail := fun y hy => hl y (List.mem_cons_of_mem x hy)
      have hset : ∀ j, ∀ y ∈ xs.set j x, P y := by
        intro j y hy
        rcases List.mem_or_eq_of_mem_set hy with hy | rfl
        · exact htail y hy
        · exact hx
      rw [ssort, ssort, smallest_congr h hx 0 1 htail]
      split
      · rw [ih htail]
      · rw [ih (hset _)]

end

end Ordered
