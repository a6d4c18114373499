import ReadingComment.Ktap.Str

/-!
# The accesses and the counter of `str_fastcmp` (`runtime/kp_str.c`)

The comparison of `Ktap.Str` has no bounds. Here a word is read only where its bytes can be, and the
counter is an `int`.
-/

namespace Ktap.Strtab

open Codec Lib

/-- What goes wrong in `str_fastcmp`. -/
inductive CompareFault where
  /-- a word that is not readable as a whole -/
  | outside
  /-- `i += 4` is no `int` -/
  | overflow
  deriving DecidableEq, Repr

/-- The loop of `str_fastcmp`, from place `i` on, where `readable` says which bytes can be read. -/
def fastcmpRun (host : Host) (mem : Memory) (readable : ℕ → Bool) (a b len i : ℕ) :
    Except CompareFault (BitVec 32) :=
  if ∀ k < 4, readable (a + i + k) ∧ readable (b + i + k) then
    let v := word host.be mem (a + i) ^^^ word host.be mem (b + i)
    if v ≠ 0 then .ok (fastcmpResult host v (len - i))
    else if 2 ^ 31 ≤ i + 4 then .error .overflow
    else if i + 4 < len then fastcmpRun host mem readable a b len (i + 4)
    else .ok 0
  else .error .outside
  termination_by len - i

variable {host : Host} {mem : Memory} {readable : ℕ → Bool} {a b len : ℕ}

/-- **The loop** returns what the comparison without bounds does, unless the words are equal up to
the last one below `2 ^ 31` and that is not behind the end. -/
theorem fastcmpRun_eq (hint : len < 2 ^ 31) (ha : ∀ k < len + 3, readable (a + k))
    (hb : ∀ k < len + 3, readable (b + k)) {i : ℕ} (hi : i < len) (hfour : 4 ∣ i) :
    fastcmpRun host mem readable a b len i =
      if 2 ^ 31 < len + 4 ∧ slice mem (a + i) (2 ^ 31 - i) = slice mem (b + i) (2 ^ 31 - i) then
        .error .overflow
      else .ok (fastcmpLoop host mem a b len i) := by
  induction hn : len - i using Nat.strong_induction_on generalizing i with
  | _ n ih =>
    subst hn
    have hread : ∀ k < 4, readable (a + i + k) ∧ readable (b + i + k) := by
      intro k hk
      rw [Nat.add_assoc, Nat.add_assoc]
      exact ⟨ha _ (by omega), hb _ (by omega)⟩
    -- the word is below the bound of the counter
    have hsplit : slice mem (a + i) (2 ^ 31 - i) = slice mem (b + i) (2 ^ 31 - i) ↔
        slice mem (a + i) 4 = slice mem (b + i) 4 ∧
          slice mem (a + i + 4) (2 ^ 31 - i - 4) = slice mem (b + i + 4) (2 ^ 31 - i - 4) :=
      slice_split (by omega)
    rw [Nat.sub_sub, Nat.add_assoc a, Nat.add_assoc b] at hsplit
    rw [fastcmpRun, if_pos hread, fastcmpLoop]
    simp only [hsplit]
    by_cases hv : word host.be mem (a + i) ^^^ word host.be mem (b + i) = 0
    · have hword := (word_xor_eq_zero host.be mem).mp hv
      simp only [hv, ne_eq, not_true_eq_false, if_false, hword, true_and]
      by_cases hlast : 2 ^ 31 ≤ i + 4
      · rw [if_pos hlast, if_pos ⟨by omega, by rw [Nat.sub_eq_zero_of_le hlast]; rfl⟩]
      · rw [if_neg hlast]
        by_cases hnext : i + 4 < len
        · rw [if_pos hnext, if_pos hnext]
          exact ih (len - (i + 4)) (by omega) hnext (by omega) rfl
        · rw [if_neg hnext, if_neg hnext, if_neg fun h => absurd h.1 (by omega)]
    · have hword := mt (word_xor_eq_zero host.be mem).mpr hv
      simp only [ne_eq, hv, not_false_eq_true, if_true]
      rw [if_neg fun h => hword h.2.1]

/-- **`str_fastcmp`** decides whether the first `len` bytes are equal, whatever is behind them, if
and only if its counter stays an `int`. -/
theorem fastcmp_decides_iff (host : Host) (mem : Memory) (readable : ℕ → Bool) {a b len : ℕ}
    (hlen : 0 < len) (hint : len < 2 ^ 31) (ha : ∀ k < len + 3, readable (a + k))
    (hb : ∀ k < len + 3, readable (b + k)) :
    (∃ r, fastcmpRun host mem readable a b len 0 = .ok r ∧
        (r = 0 ↔ slice mem a len = slice mem b len)) ↔
      len ≤ 2 ^ 31 - 4 ∨ slice mem a (2 ^ 31) ≠ slice mem b (2 ^ 31) := by
  rw [fastcmpRun_eq hint ha hb hlen (by omega), Nat.sub_zero, Nat.add_zero, Nat.add_zero]
  constructor
  · rintro ⟨r, hr, -⟩
    by_contra h
    rw [not_or, not_not] at h
    rw [if_pos ⟨by omega, h.2⟩] at hr
    cases hr
  · intro h
    rw [if_neg fun hover => h.elim (fun hle => absurd hover.1 (by omega)) fun hne => hne hover.2]
    exact ⟨_, rfl, strFastcmp_eq_zero hlen⟩

/-- Three zeros at two places, with different bytes behind them. -/
theorem fastcmp_decides_three : ∃ r,
    fastcmpRun ⟨false, id, fun _ _ => 0, 0, 0⟩ (fun x => if x = 3 then 1 else 0) (fun _ =>
      true) 0 8 3 0 =
        .ok r ∧
      (r = 0 ↔ slice (fun x => if x = 3 then 1 else 0) 0 3 =
        slice (fun x => if x = 3 then 1 else 0) 8 3) :=
  (fastcmp_decides_iff _ _ _ (by decide) (by decide) (fun _ _ => rfl) fun _ _ => rfl).mpr
    (.inl (by decide))

/-- Two arrays of zeros, of `2 ^ 31 - 3` bytes: the counter overflows. -/
theorem fastcmp_overflows : ¬ ∃ r,
    fastcmpRun ⟨false, id, fun _ _ => 0, 0, 0⟩ (fun _ => 0) (fun _ => true) 0 0 (2 ^ 31 - 3) 0 =
      .ok r ∧
      (r = 0 ↔ slice (fun _ => 0) 0 (2 ^ 31 - 3) = slice (fun _ => 0) 0 (2 ^ 31 - 3)) := by
  rintro ⟨r, hr, -⟩
  rw [fastcmpRun_eq (by omega) (fun _ _ => rfl) (fun _ _ => rfl) (by omega) (by omega),
    if_pos ⟨by omega, rfl⟩] at hr
  cases hr

end Ktap.Strtab
