import ReadingComment.Ktap.ForCounts

/-!
# When a numeric `for` loop counts right

A loop with an empty block shows that the condition of `good_of_runs` is exact. With a step
of zero it enters the block although no value is in range. When the value behind the last
one in range is no number of 64 bits, the counter wraps around to a number that is in range
again, unless `check_hot_loop` has failed before.
-/

namespace Ktap.Vm

variable {σ : Type}

/-- `for (i = init, limit, step) {}` at the beginning of a function. -/
def emptyLoop : NumericFor where
  base := 0
  start := 0
  init := []
  limit := []
  step := some []
  block := []
  captured := fun _ => false
  spares := nofun
  fits := by decide

/-- Before the `FORI` of the loop with an empty block. -/
def emptyStart (count : BitVec 32) (init limit step : Number) : LoopState σ where
  pc := 0
  regs := fun r => if r = 0 then .num init else if r = 1 then .num limit else .num step
  loopCount := count
  entries := []

/-- What `FORI` and `FORL` need no answer for. -/
def noEffect : Effect σ := ⟨fun _ => .nil, 0, 0, none⟩

theorem emptyStart_starts (count : BitVec 32) (init limit step : Number) :
    emptyLoop.Starts (emptyStart (σ := σ) count init limit step) count init limit step where
  pc := rfl
  idx := rfl
  limit := rfl
  step := rfl
  loopCount := rfl
  entries := rfl

variable {maxLoop count : BitVec 32} {init limit step : Number}

theorem InBlock.pc_eq {s : LoopState σ} {n : Number} {k : ℕ}
    (h : InBlock emptyLoop maxLoop count init limit step s n k) : s.pc = emptyLoop.loopend := by
  have hlt := h.lt
  have hle := h.le
  rw [NumericFor.loopend] at *
  simp only [emptyLoop, List.length_nil] at *
  omega

theorem emptyLoop_reaches {k : ℕ} (hk : k < iterations init limit step)
    (hchecks : k ≤ (maxLoop - count).toNat) :
    ∃ (s : LoopState σ) (n : Number),
      emptyLoop.Runs maxLoop (emptyStart count init limit step) (.running s) ∧
        InBlock emptyLoop maxLoop count init limit step s n k ∧
        s.loopCount = count + BitVec.ofNat 32 k := by
  have hstart := emptyStart_starts (σ := σ) count init limit step
  induction k with
  | zero =>
    have hrange := (inRange_iff init limit step 0).mpr hk
    rw [Nat.cast_zero, Int.zero_mul, Int.add_zero] at hrange
    have hrun : emptyLoop.Runs maxLoop (emptyStart (σ := σ) count init limit step)
        (emptyLoop.round maxLoop _ noEffect) := .round noEffect .start
    rw [hstart.round_eq, if_pos ((forTest_iff ..).mpr (.inl hrange))] at hrun
    exact ⟨_, init, hrun, hstart.inBlock hrange, by simp [emptyStart]⟩
  | succ k ih =>
    obtain ⟨s, n, hrun, hin, hcount⟩ := ih (by omega) (by omega)
    have hnext := hin.toInt_of_fits (fits_of_lt hk)
    have hrange := (inRange_iff init limit step (k + 1)).mpr hk
    rw [← hnext] at hrange
    have hne : s.loopCount ≠ maxLoop := by
      rw [hcount]
      rintro rfl
      bv_omega
    have hrun' := hrun.round noEffect
    rw [round_forl_eq hin.pc_eq hin.regIdx hin.regStop hin.regStep,
      if_pos ((forTest_iff ..).mpr (.inl hrange)), if_neg hne] at hrun'
    refine ⟨_, _, hrun', hin.next hnext hrange hne, ?_⟩
    dsimp only
    rw [hcount]
    bv_omega

theorem toInt_add_of_not_fits {n : Number} (h : ¬ Fits (n.toInt + step.toInt)) :
    0 < step.toInt ∧ (n + step).toInt = n.toInt + step.toInt - 2 ^ 64 ∨
      step.toInt < 0 ∧ (n + step).toInt = n.toInt + step.toInt + 2 ^ 64 := by
  have hn := fits_toInt n
  have hs := fits_toInt step
  rw [Fits] at *
  rw [BitVec.toInt_add, Int.bmod_def]
  omega

theorem InBlock.wraps {L : NumericFor} {s : LoopState σ} {n : Number} {k : ℕ}
    (h : InBlock L maxLoop count init limit step s n k)
    (hfits : ¬ Fits (init.toInt + (k + 1 : ℕ) * step.toInt)) :
    forTest (n + step) limit step = true ∧
      ∀ j : ℕ, k ≤ j → j ≤ k + 2 → (n + step).toInt ≠ init.toInt + j * step.toInt := by
  have hn := h.toInt
  have hone : init.toInt + (k + 1 : ℕ) * step.toInt = n.toInt + step.toInt := by
    rw [hn, Nat.cast_succ, Int.add_mul, Int.one_mul, Int.add_assoc]
  have htwo : init.toInt + (k + 2 : ℕ) * step.toInt = n.toInt + 2 * step.toInt := by
    rw [hn, Nat.cast_add, Int.add_mul, Int.add_assoc]
    rfl
  rw [hone] at hfits
  have hwrap := toInt_add_of_not_fits hfits
  have hrange := h.inRange
  have hfn := fits_toInt n
  have hfs := fits_toInt step
  refine ⟨(forTest_iff ..).mpr (.inl ?_), fun j hkj hjk => ?_⟩
  · rw [InRange] at *
    rw [Fits] at *
    omega
  · rw [Fits] at *
    obtain rfl | rfl | rfl : j = k ∨ j = k + 1 ∨ j = k + 2 := by omega
    · rw [← hn]
      omega
    · rw [hone]
      omega
    · rw [htwo]
      omega

theorem emptyLoop_wraps (h : 1 ≤ iterations init limit step)
    (hchecks : iterations init limit step ≤ (maxLoop - count).toNat + 1)
    (hfits : ¬ Fits (init.toInt + iterations init limit step * step.toInt)) :
    ∃ o : Outcome σ, emptyLoop.Runs maxLoop (emptyStart count init limit step) o ∧
      ¬ Meets emptyLoop maxLoop count init limit step o := by
  obtain ⟨k, hk⟩ := Nat.exists_eq_add_of_le' h
  rw [hk] at hchecks hfits
  obtain ⟨s, n, hrun, hin, -⟩ : ∃ (s : LoopState σ) (n : Number), _ :=
    emptyLoop_reaches (show k < iterations init limit step by omega) (Nat.le_of_lt_succ hchecks)
  obtain ⟨htest, hne⟩ := hin.wraps hfits
  have hrun' := hrun.round noEffect
  rw [round_forl_eq hin.pc_eq hin.regIdx hin.regStop hin.regStep, if_pos htest] at hrun'
  refine ⟨_, hrun', fun hm => ?_⟩
  obtain ⟨m, j, hreg, hj, hlen⟩ := hm.counter
  have hlength := hin.length
  split at hreg
  · rename_i hcheck
    rw [if_pos hcheck] at hlen
    change counted emptyLoop.base s.regs (n + step) emptyLoop.base = .num m at hreg
    rw [counted_idx] at hreg
    obtain rfl := Val.num.inj hreg
    change s.entries.length = j ∨ s.entries.length = j + 1 at hlen
    exact hne j (by omega) (by omega) hj
  · rename_i hcheck
    rw [if_neg hcheck] at hlen
    change counted emptyLoop.base s.regs (n + step) emptyLoop.base = .num m at hreg
    rw [counted_idx] at hreg
    obtain rfl := Val.num.inj hreg
    change (s.entries ++ [_]).length = j ∨ (s.entries ++ [_]).length = j + 1 at hlen
    rw [List.length_append, List.length_singleton] at hlen
    exact hne j (by omega) (by omega) hj

/-- **Numeric `for` loops.** Whatever the block is, the loop executes it exactly for `init`,
`init + step`, ... in range, with its variable set to the counter, and ends or reports the loop
limit without the counter wrapping around, if and only if a step of zero comes with a limit above
`init`, and the value behind the last one in range is a number of 64 bits unless `check_hot_loop`
fails before. -/
theorem numericFor_counts_iff (σ : Type) (maxLoop count : BitVec 32) (init limit step : Number) :
    (∀ (L : NumericFor) (s : LoopState σ), L.Starts s count init limit step →
      ∀ o, L.Runs maxLoop s o → Meets L maxLoop count init limit step o) ↔
        Counts maxLoop count init limit step := by
  constructor
  · intro h
    have hstart := emptyStart_starts (σ := σ) count init limit step
    refine ⟨?_, fun hone hchecks => ?_⟩
    · rintro rfl
      by_contra hle
      have htest : forTest init limit 0 = true := (forTest_iff ..).mpr (.inr ⟨rfl, by omega⟩)
      have hrun : emptyLoop.Runs maxLoop (emptyStart (σ := σ) count init limit 0)
          (emptyLoop.round maxLoop _ noEffect) := .round noEffect .start
      rw [hstart.round_eq, if_pos htest] at hrun
      obtain ⟨n, -, -, hrange⟩ := (h _ _ hstart _ hrun).entries 0 _ rfl
      have hzero : (0 : Number).toInt = 0 := rfl
      rw [InRange, hzero] at hrange
      omega
    · by_contra hfits
      obtain ⟨o, hrun, hm⟩ := emptyLoop_wraps hone hchecks hfits
      exact hm (h _ _ hstart o hrun)
  · exact fun hc L s hs o hruns => (good_of_runs hc hs hruns).meets

/-- `for (i = 9223372036854775806, 9223372036854775807, 1) {}` enters its block a third time, with
the least number. -/
theorem for_wraps_around :
    ∃ o : Outcome Unit,
      emptyLoop.Runs 100000 (emptyStart 0 0x7ffffffffffffffe#64 0x7fffffffffffffff#64 1) o ∧
      o.state.entries = [.num 0x7ffffffffffffffe#64, .num 0x7fffffffffffffff#64, .num longMin] ∧
      ¬ Meets emptyLoop 100000 0 0x7ffffffffffffffe#64 0x7fffffffffffffff#64 1 o := by
  have hstart := emptyStart_starts (σ := Unit) 0 0x7ffffffffffffffe#64 0x7fffffffffffffff#64 1
  have hrun : emptyLoop.Runs 100000 (emptyStart 0 0x7ffffffffffffffe#64 0x7fffffffffffffff#64 1)
      (emptyLoop.round (σ := Unit) 100000 _ noEffect) := .round noEffect .start
  have hfirst : InBlock emptyLoop 100000 0 _ _ 1 _ _ 0 := hstart.inBlock (by decide)
  rw [hstart.round_eq, if_pos (by decide)] at hrun
  replace hrun := hrun.round noEffect
  have hsecond := hfirst.next (by decide) (by decide) (by decide)
  rw [round_forl_eq hfirst.pc_eq hfirst.regIdx hfirst.regStop hfirst.regStep, if_pos (by decide),
    if_neg (by decide)] at hrun
  replace hrun := hrun.round noEffect
  rw [round_forl_eq hsecond.pc_eq hsecond.regIdx hsecond.regStop hsecond.regStep,
    if_pos (by decide), if_neg (by decide)] at hrun
  refine ⟨_, hrun, rfl, fun hm => ?_⟩
  obtain ⟨n, hn, hval, -⟩ := hm.entries 2 _ rfl
  obtain rfl := Val.num.inj hn
  exact absurd hval (by decide)

end Ktap.Vm
