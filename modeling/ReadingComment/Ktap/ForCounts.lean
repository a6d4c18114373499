import Mathlib.Tactic.Linarith
import ReadingComment.Ktap.ForLoop

/-!
# What a numeric `for` loop counts

The values that the variable of a loop is to have are `init`, `init + step`, ..., over the
integers, as long as they are in range. The counter of the machine is one of them in every
state of a loop (`InBlock`), and `FORL` goes on to the next one as long as that is a number
of 64 bits: the sum may be out of range and yet wrap around to a number that is in range.
A step of zero counts as negative.
-/

namespace Ktap.Vm

open Function List

/-! ## Counting over the integers -/

/-- `i <= limit` for a step up, `i >= limit` for a step down. -/
def InRange (step i limit : ℤ) : Prop := 0 < step ∧ i ≤ limit ∨ step < 0 ∧ limit ≤ i

instance (step i limit : ℤ) : Decidable (InRange step i limit) := by
  unfold InRange
  infer_instance

def iterations (init limit step : Number) : ℕ :=
  if InRange step.toInt init.toInt limit.toInt then
    ((limit.toInt - init.toInt).tdiv step.toInt).toNat + 1
  else 0

theorem inRange_iff (init limit step : Number) (k : ℕ) :
    InRange step.toInt (init.toInt + k * step.toInt) limit.toInt ↔
    k < iterations init limit step := by
  generalize hs : step.toInt = s
  generalize hi : init.toInt = i
  generalize hl : limit.toInt = l
  rw [iterations, hs, hi, hl]
  rcases lt_trichotomy s 0 with hneg | rfl | hpos
  · have hstep : (k : ℤ) * s ≤ 0 := mul_nonpos_of_nonneg_of_nonpos (Int.natCast_nonneg k) hneg.le
    by_cases hil : l ≤ i
    · rw [if_pos (.inr ⟨hneg, hil⟩)]
      have htdiv : (l - i).tdiv s = (i - l) / -s := by
        rw [← Int.neg_sub, Int.neg_tdiv, ← Int.tdiv_neg, Int.tdiv_eq_ediv_of_nonneg (by omega)]
      have hle : (k : ℤ) ≤ (i - l) / -s ↔ (k : ℤ) * -s ≤ i - l := Int.le_ediv_iff_mul_le (by omega)
      have hmul : (k : ℤ) * -s = -((k : ℤ) * s) := by rw [Int.mul_neg]
      have hnonneg : 0 ≤ (i - l) / -s := Int.ediv_nonneg (by omega) (by omega)
      rw [htdiv, InRange]
      omega
    · rw [if_neg (by rw [InRange]; omega), InRange]
      omega
  · rw [if_neg (by rw [InRange]; omega), InRange]
    omega
  · have hstep : 0 ≤ (k : ℤ) * s := mul_nonneg (Int.natCast_nonneg k) hpos.le
    by_cases hil : i ≤ l
    · rw [if_pos (.inl ⟨hpos, hil⟩)]
      have htdiv : (l - i).tdiv s = (l - i) / s := Int.tdiv_eq_ediv_of_nonneg (by omega)
      have hle : (k : ℤ) ≤ (l - i) / s ↔ (k : ℤ) * s ≤ l - i := Int.le_ediv_iff_mul_le hpos
      have hnonneg : 0 ≤ (l - i) / s := Int.ediv_nonneg (by omega) hpos.le
      rw [htdiv, InRange]
      omega
    · rw [if_neg (by rw [InRange]; omega), InRange]
      omega

def Fits (z : ℤ) : Prop := -2 ^ 63 ≤ z ∧ z < 2 ^ 63

instance (z : ℤ) : Decidable (Fits z) := by
  unfold Fits
  infer_instance

theorem fits_toInt (n : Number) : Fits n.toInt :=
  ⟨BitVec.le_toInt n, BitVec.toInt_lt⟩

theorem toInt_add_of_fits {x y : Number} (h : Fits (x.toInt + y.toInt)) :
    (x + y).toInt = x.toInt + y.toInt := by
  rw [BitVec.toInt_add]
  exact Int.bmod_eq_of_le (by have := h.1; omega) (by have := h.2; omega)

theorem forTest_iff (idx limit step : Number) : forTest idx limit step = true ↔
    InRange step.toInt idx.toInt limit.toInt ∨ step.toInt = 0 ∧ limit.toInt ≤ idx.toInt := by
  have hzero : (0 : Number).slt step = true ↔ 0 < step.toInt := by
    rw [BitVec.slt_iff_toInt_lt]
    rfl
  rw [forTest, InRange]
  split
  · rename_i h
    rw [hzero] at h
    rw [BitVec.sle_iff_toInt_le]
    omega
  · rename_i h
    rw [hzero] at h
    rw [BitVec.sle_iff_toInt_le]
    omega

/-! ## The code of the loop -/

namespace NumericFor

variable (L : NumericFor)

theorem emit_eq :
    L.emit = some (L.head ++ ⟨.fori, L.base, L.block.length + 1 + bcbiasJ⟩ :: L.block ++
    [⟨.forl, L.base, bcbiasJ - (L.block.length + 1)⟩]) := by
  have hfits := L.fits
  rw [bcbiasJ, bcmaxD] at hfits
  have hforl : jumpOffset L.loopend (L.loop + 1) = bcbiasJ - (L.block.length + 1) := by
    rw [jumpOffset, loopend, bcbiasJ]
    omega
  have hfori : jumpOffset L.loop (L.loopend + 1) = L.block.length + 1 + bcbiasJ := by
    rw [jumpOffset, loopend, bcbiasJ]
    omega
  rw [emit, jmpPatchins, hforl, if_neg (by rw [bcmaxD, bcbiasJ]; omega), jmpPatchins, hfori,
    if_neg (by rw [bcmaxD, bcbiasJ]; omega)]
  rfl

theorem instr_loop : L.instr L.loop = ⟨.fori, L.base, L.block.length + 1 + bcbiasJ⟩ := by
  rw [instr, emit_eq, loop, Nat.add_sub_cancel_left, fetch, Option.getD_some, append_assoc,
    getElem?_append_right (Nat.le_refl _), Nat.sub_self]
  rfl

theorem instr_loopend : L.instr L.loopend = ⟨.forl, L.base, bcbiasJ - (L.block.length + 1)⟩ := by
  have hplace : L.loopend - L.start = L.head.length + (L.block.length + 1) := by
    rw [loopend, loop]
    omega
  rw [instr, emit_eq, hplace, fetch, Option.getD_some, append_assoc,
    getElem?_append_right (by omega), Nat.add_sub_cancel_left, cons_append,
    getElem?_cons_succ, getElem?_append_right (Nat.le_refl _), Nat.sub_self]
  rfl

theorem instr_mem {pc : ℕ} (h : L.loop < pc) (h' : pc < L.loopend) : L.instr pc ∈ L.block := by
  rw [loopend] at h'
  obtain ⟨j, hj, rfl⟩ : ∃ j, j < L.block.length ∧ L.loop + 1 + j = pc :=
    ⟨pc - (L.loop + 1), by omega, by omega⟩
  have hplace : L.loop + 1 + j - L.start = L.head.length + (j + 1) := by
    rw [loop]
    omega
  rw [instr, emit_eq, hplace, fetch, Option.getD_some, append_assoc,
    getElem?_append_right (by omega), Nat.add_sub_cancel_left, cons_append,
    getElem?_cons_succ, getElem?_append_left hj, getElem?_eq_getElem hj,
    Option.getD_some]
  exact getElem_mem hj

theorem target_loop : (L.instr L.loop).target L.loop = L.loopend + 1 := by
  rw [instr_loop, loopend]
  change L.loop + 1 + (L.block.length + 1 + bcbiasJ) - bcbiasJ = _
  omega

theorem target_loopend : (L.instr L.loopend).target L.loopend = L.loop + 1 := by
  have hfits := L.fits
  rw [bcbiasJ, bcmaxD] at hfits
  rw [instr_loopend, loopend]
  change L.loop + 1 + L.block.length + 1 + (bcbiasJ - (L.block.length + 1)) - bcbiasJ = _
  rw [bcbiasJ]
  omega

theorem loop_lt_loopend : L.loop < L.loopend := by
  rw [loopend]
  omega

end NumericFor

/-! ## States of a loop -/

section counts

variable {σ : Type}

/-- The values at the entries of the block are those in range, from the first one on. -/
def Entered (init limit step : Number) (l : List (Val σ)) : Prop :=
  ∀ (k : ℕ) (v : Val σ), l[k]? = some v →
    ∃ n : Number, v = .num n ∧ n.toInt = init.toInt + k * step.toInt ∧
      InRange step.toInt n.toInt limit.toInt

variable {n : Number} {k : ℕ}

theorem Entered.concat {init limit step : Number} {l : List (Val σ)} (h : Entered init limit step l)
    (hn : n.toInt = init.toInt + l.length * step.toInt)
    (hr : InRange step.toInt n.toInt limit.toInt) :
    Entered init limit step (l ++ [.num n]) := by
  intro k v hv
  rcases Nat.lt_trichotomy k l.length with hk | rfl | hk
  · rw [getElem?_append_left hk] at hv
    exact h k v hv
  · rw [getElem?_append_right (Nat.le_refl _), Nat.sub_self] at hv
    exact ⟨n, (Option.some.inj hv).symm, hn, hr⟩
  · rw [getElem?_eq_none (by rw [length_append, length_singleton]; omega)] at hv
    cases hv

/-- What is claimed of where a round of a loop leads to: the block has been entered with the right
values of the variable, with all of them where the loop is done; the counter is the value of the
last entry or of the one to come, and in the block the variable was set to it; and the checks bound
the entries. -/
structure Meets (L : NumericFor) (maxLoop count : BitVec 32) (init limit step : Number)
    (o : Outcome σ) : Prop where
  entries : Entered init limit step o.state.entries
  complete : ∀ s, o = .done s →
    ¬ InRange step.toInt (init.toInt + s.entries.length * step.toInt) limit.toInt
  counter : ∃ (n : Number) (k : ℕ), o.state.regs (L.base + forlIdx) = .num n ∧
    n.toInt = init.toInt + k * step.toInt ∧
      (o.state.entries.length = k ∨ o.state.entries.length = k + 1)
  visible : ∀ s, o = .running s → s.pc ≠ L.loop →
    s.entries.getLast? = some (s.regs (L.base + forlIdx))
  stops : o.state.entries.length ≤ (maxLoop - count).toNat + 1

/-- The counter does not run out of its 64 bits before the loop ends or the checks fail, and a loop
with a step of zero is not entered. -/
def Counts (maxLoop count : BitVec 32) (init limit step : Number) : Prop :=
  (step = 0 → init.toInt < limit.toInt) ∧
    (1 ≤ iterations init limit step → iterations init limit step ≤ (maxLoop - count).toNat + 1 →
      Fits (init.toInt + iterations init limit step * step.toInt))

/-- A state in the block or before `FORL`. -/
structure InBlock (L : NumericFor) (maxLoop count : BitVec 32) (init limit step : Number)
    (s : LoopState σ) (n : Number) (k : ℕ) : Prop where
  lt : L.loop < s.pc
  le : s.pc ≤ L.loopend
  regIdx : s.regs (L.base + forlIdx) = .num n
  regStop : s.regs (L.base + forlStop) = .num limit
  regStep : s.regs (L.base + forlStep) = .num step
  length : s.entries.length = k + 1
  last : s.entries.getLast? = some (.num n)
  toInt : n.toInt = init.toInt + k * step.toInt
  inRange : InRange step.toInt n.toInt limit.toInt
  entries : Entered init limit step s.entries
  checks : (maxLoop - s.loopCount).toNat + s.entries.length ≤ (maxLoop - count).toNat + 1

/-- Where the rounds of a loop are: the claim is met, and the loop goes on from a state that is
known. -/
structure WellCounted (L : NumericFor) (maxLoop count : BitVec 32) (init limit step : Number)
    (o : Outcome σ) : Prop where
  meets : Meets L maxLoop count init limit step o
  state : ∀ s, o = .running s →
    L.Starts s count init limit step ∨ ∃ n k, InBlock L maxLoop count init limit step s n k

variable {L : NumericFor} {maxLoop count : BitVec 32} {init limit step : Number} {s : LoopState σ}

theorem InBlock.good (h : InBlock L maxLoop count init limit step s n k) :
    WellCounted L maxLoop count init limit step (.running s) := by
  refine ⟨⟨h.entries, nofun, ⟨n, k, h.regIdx, h.toInt, .inr h.length⟩, ?_, ?_⟩, ?_⟩
  · rintro s' ⟨rfl⟩ -
    rw [h.last, h.regIdx]
  · have := h.checks
    change s.entries.length ≤ _
    omega
  · rintro s' ⟨rfl⟩
    exact .inr ⟨n, k, h⟩

theorem good_of_stop {o : Outcome σ} (hrun : ∀ s, o ≠ .running s) (hdone : ∀ s, o ≠ .done s)
    (hentries : Entered init limit step o.state.entries)
    (hlen : o.state.entries.length ≤ (maxLoop - count).toNat + 1)
    (hidx : o.state.regs (L.base + forlIdx) = .num n) (hn : n.toInt = init.toInt + k * step.toInt)
    (hk : o.state.entries.length = k ∨ o.state.entries.length = k + 1) :
    WellCounted L maxLoop count init limit step o where
  meets := {
    entries := hentries
    complete := fun s h => absurd h (hdone s)
    counter := ⟨n, k, hidx, hn, hk⟩
    visible := fun s h => absurd h (hrun s)
    stops := hlen }
  state := fun s h => absurd h (hrun s)

theorem checkHotLoops_toNat {n : ℕ} {c c' : BitVec 32} (h : checkHotLoops maxLoop n c = some c') :
    (maxLoop - c').toNat + n = (maxLoop - c).toNat := by
  induction n generalizing c with
  | zero =>
    cases h
    rfl
  | succ n ih =>
    rw [checkHotLoops] at h
    split at h
    · cases h
    · rename_i hne
      have := ih h
      bv_omega

/-! ## A round -/

variable {s' : LoopState σ} {i : Instr}

theorem InBlock.settle (h : InBlock L maxLoop count init limit step s n k) (hpc : s.pc ≠ L.loopend)
    (hregs : ∀ r, L.base ≤ r → r < L.base + forlExt → s'.regs r = s.regs r)
    (hentries : s'.entries = s.entries)
    (hchecks : (maxLoop - s'.loopCount).toNat ≤ (maxLoop - s.loopCount).toNat) :
    WellCounted L maxLoop count init limit step (L.settle s.pc s') := by
  have hlen := h.checks
  have hidx : s'.regs (L.base + forlIdx) = .num n :=
    (hregs _ (by omega) (by rw [forlIdx, forlExt]; omega)).trans h.regIdx
  have hnot : ¬ (s.pc = L.loop ∨ s.pc = L.loopend) := by
    have := h.lt
    omega
  rw [NumericFor.settle, if_neg hnot]
  split
  · rename_i hin
    refine InBlock.good (n := n) (k := k) { h with
      lt := hin.1
      le := hin.2
      regIdx := hidx
      regStop := (hregs _ (by omega) (by rw [forlStop, forlExt]; omega)).trans h.regStop
      regStep := (hregs _ (by omega) (by rw [forlStep, forlExt]; omega)).trans h.regStep
      length := by rw [hentries]; exact h.length
      last := by rw [hentries]; exact h.last
      entries := by rw [hentries]; exact h.entries
      checks := by rw [hentries]; omega }
  · refine good_of_stop nofun nofun ?_ ?_ hidx h.toInt (.inr ?_)
    · change Entered init limit step s'.entries
      rw [hentries]
      exact h.entries
    · change s'.entries.length ≤ _
      rw [hentries]
      omega
    · change s'.entries.length = _
      rw [hentries]
      exact h.length

theorem InBlock.stopped (h : InBlock L maxLoop count init limit step s n k) (e : Stop) :
    WellCounted L maxLoop count init limit step (.stopped e s) := by
  refine good_of_stop nofun nofun h.entries ?_ h.regIdx h.toInt (.inr h.length)
  have := h.checks
  change s.entries.length ≤ _
  omega

theorem NumericFor.not_writes {pc : ℕ} (hmem : L.instr pc ∈ L.block) {r : ℕ} (h : L.base ≤ r)
    (h' : r < L.base + forlExt) : r ∉ (L.instr pc).writes := by
  intro hw
  rcases L.spares _ hmem r (.inl hw) with hlt | hle
  · omega
  · omega

theorem writes_fori (h : i.op = .fori) : i.writes = [i.a + 3] := by
  obtain ⟨op, a, d⟩ := i
  obtain rfl : op = .fori := h
  rfl

theorem writes_forl (h : i.op = .forl) : i.writes = [i.a, i.a + 3] := by
  obtain ⟨op, a, d⟩ := i
  obtain rfl : op = .forl := h
  rfl

theorem fori_ok (h : fori i s = .ok s') :
    (∀ r, r ≠ i.a + 3 → s'.regs r = s.regs r) ∧ s'.entries = s.entries ∧
      s'.loopCount = s.loopCount := by
  rw [fori] at h
  split at h
  · split at h
    · obtain rfl := Except.ok.inj h
      exact ⟨fun r hr => update_of_ne hr .., rfl, rfl⟩
    · obtain rfl := Except.ok.inj h
      exact ⟨fun _ _ => rfl, rfl, rfl⟩
  · cases h

theorem forl_ok (h : forl i s = .ok s') :
    (∀ r, r ≠ i.a → r ≠ i.a + 3 → s'.regs r = s.regs r) ∧ s'.entries = s.entries := by
  rw [forl] at h
  split at h
  · dsimp only at h
    split at h
    · obtain rfl := Except.ok.inj h
      refine ⟨fun r hr hr' => ?_, rfl⟩
      change update (update s.regs i.a _) (i.a + 3) _ r = _
      rw [update_of_ne hr', update_of_ne hr]
    · obtain rfl := Except.ok.inj h
      exact ⟨fun _ _ _ => rfl, rfl⟩
  · cases h

theorem InBlock.round_block (h : InBlock L maxLoop count init limit step s n k)
    (hpc : s.pc < L.loopend) (e : Effect σ) :
    WellCounted L maxLoop count init limit step (L.round maxLoop s e) := by
  have hmem := L.instr_mem h.lt hpc
  have hloop : s.pc ≠ L.loop := h.lt.ne'
  have henter : ∀ s' : LoopState σ, L.enter s.pc s' = s' := by
    intro s'
    rw [NumericFor.enter, if_neg]
    omega
  rw [NumericFor.round]
  by_cases hfori : (L.instr s.pc).op = .fori
  · rw [if_pos hfori]
    split
    · rename_i s' hs'
      obtain ⟨hregs, hentries, hcount⟩ := fori_ok hs'
      rw [henter]
      refine h.settle hpc.ne (fun r hr hr' => hregs r ?_) hentries (by rw [hcount])
      rintro rfl
      exact NumericFor.not_writes hmem hr hr' (by rw [writes_fori hfori]; exact mem_cons_self)
    · exact h.stopped _
  · rw [if_neg hfori]
    by_cases hforl : (L.instr s.pc).op = .forl
    · rw [if_pos hforl]
      split
      · rename_i s' hs'
        obtain ⟨hregs, hentries⟩ := forl_ok hs'
        have hkeep : ∀ r, L.base ≤ r → r < L.base + forlExt → s'.regs r = s.regs r := by
          intro r hr hr'
          have hnot := NumericFor.not_writes hmem hr hr'
          rw [writes_forl hforl, mem_cons, mem_singleton, not_or] at hnot
          exact hregs r hnot.1 hnot.2
        split
        · rename_i c hc
          have := checkHotLoops_toNat hc
          rw [henter]
          refine h.settle hpc.ne hkeep hentries ?_
          change (maxLoop - c).toNat ≤ _
          omega
        · have hidx := (hkeep _ (by omega) (by rw [forlIdx, forlExt]; omega)).trans h.regIdx
          refine good_of_stop nofun nofun ?_ ?_ hidx h.toInt (.inr ?_)
          · change Entered init limit step s'.entries
            rw [hentries]
            exact h.entries
          · have := h.checks
            change s'.entries.length ≤ _
            rw [hentries]
            omega
          · change s'.entries.length = _
            rw [hentries]
            exact h.length
      · exact h.stopped _
    · rw [if_neg hforl]
      split
      · exact h.stopped _
      · split
        · rename_i c hc
          have := checkHotLoops_toNat hc
          refine h.settle hpc.ne (fun r hr hr' => ?_) rfl ?_
          · have hnot : ¬ (L.instr s.pc).Touches L.captured r := by
              intro ht
              rcases L.spares _ hmem r ht with hlt | hle
              · omega
              · omega
            dsimp only
            rw [if_neg hnot]
          · change (maxLoop - c).toNat ≤ _
            omega
        · exact h.stopped _

/-! ## The rounds of the loop's own instructions -/

def counted (base : ℕ) (ρ : Regs σ) (n : Number) : Regs σ :=
  Function.update (Function.update ρ base (.num n)) (base + 3) (.num n)

theorem counted_idx (base : ℕ) (ρ : Regs σ) (n : Number) : counted base ρ n base = .num n := by
  rw [counted, update_of_ne (by omega), update_self]

theorem counted_ext (base : ℕ) (ρ : Regs σ) (n : Number) : counted base ρ n (base + 3) = .num n :=
  update_self ..

theorem counted_of_ne {base : ℕ} {ρ : Regs σ} {r : ℕ} (h : r ≠ base) (h' : r ≠ base + 3) :
    counted base ρ n r = ρ r := by
  rw [counted, update_of_ne h', update_of_ne h]

theorem NumericFor.Starts.round_eq (h : L.Starts s count init limit step) (e : Effect σ) :
    L.round maxLoop s e =
      if forTest init limit step then .running { s with
        pc := L.loop + 1
        regs := counted L.base s.regs init
        entries := [.num init] }
      else .done { s with pc := L.loopend + 1 } := by
  have hidx : s.regs L.base = .num init := h.idx
  have hlt := L.loop_lt_loopend
  have hfori : fori (L.instr L.loop) s =
      if forTest init limit step then
        .ok { s with pc := L.loop + 1, regs := update s.regs (L.base + 3) (.num init) }
      else .ok { s with pc := L.loopend + 1 } := by
    have hlimit : s.regs (L.base + 1) = .num limit := h.limit
    have hstep : s.regs (L.base + 2) = .num step := h.step
    rw [← L.target_loop, L.instr_loop, fori, hidx, hlimit, hstep, h.pc]
  rw [NumericFor.round, h.pc, if_pos (by rw [L.instr_loop]), hfori]
  by_cases htest : forTest init limit step = true
  · have hregs : counted L.base s.regs init = update s.regs (L.base + 3) (.num init) := by
      rw [counted, ← hidx, update_eq_self]
    rw [if_pos htest, if_pos htest, hregs]
    dsimp only
    rw [NumericFor.enter, if_pos ⟨.inl rfl, rfl⟩, NumericFor.settle, if_pos (by dsimp only; omega),
      h.entries, forlExt]
    dsimp only
    rw [update_self]
    rfl
  · rw [if_neg htest, if_neg htest]
    dsimp only
    rw [NumericFor.enter, if_neg (by dsimp only; omega), NumericFor.settle,
      if_neg (by dsimp only; omega), if_pos (.inl rfl)]

theorem round_forl_eq (hpc : s.pc = L.loopend) (hidx : s.regs L.base = .num n)
    (hlimit : s.regs (L.base + 1) = .num limit) (hstep : s.regs (L.base + 2) = .num step)
    (e : Effect σ) :
    L.round maxLoop s e =
      if forTest (n + step) limit step then
        if s.loopCount = maxLoop then .stopped .loopLimit { s with
          pc := L.loop + 1
          regs := counted L.base s.regs (n + step) }
        else .running {
          pc := L.loop + 1
          regs := counted L.base s.regs (n + step)
          loopCount := s.loopCount + 1
          entries := s.entries ++ [.num (n + step)] }
      else if s.loopCount = maxLoop then .stopped .loopLimit { s with pc := L.loopend + 1 }
      else .done { s with pc := L.loopend + 1, loopCount := s.loopCount + 1 } := by
  have hlt := L.loop_lt_loopend
  have hforl : forl (L.instr L.loopend) s =
      if forTest (n + step) limit step then
        .ok { s with pc := L.loop + 1, regs := counted L.base s.regs (n + step) }
      else .ok { s with pc := L.loopend + 1 } := by
    rw [← L.target_loopend, L.instr_loopend, forl, hidx, hlimit, hstep, hpc]
    rfl
  rw [NumericFor.round, hpc, if_neg (by rw [L.instr_loopend]; exact nofun),
    if_pos (by rw [L.instr_loopend]), hforl]
  by_cases htest : forTest (n + step) limit step = true
  · rw [if_pos htest, if_pos htest]
    dsimp only
    by_cases hcount : s.loopCount = maxLoop
    · rw [checkHotLoops, if_pos hcount, if_pos hcount]
    · rw [checkHotLoops, if_neg hcount, if_neg hcount, checkHotLoops]
      dsimp only
      rw [NumericFor.enter, if_pos ⟨.inr rfl, rfl⟩, NumericFor.settle,
        if_pos (by dsimp only; omega),
        forlExt]
      dsimp only
      rw [counted_ext]
  · rw [if_neg htest, if_neg htest]
    dsimp only
    by_cases hcount : s.loopCount = maxLoop
    · rw [checkHotLoops, if_pos hcount, if_pos hcount]
    · rw [checkHotLoops, if_neg hcount, if_neg hcount, checkHotLoops]
      dsimp only
      rw [NumericFor.enter, if_neg (by dsimp only; omega), NumericFor.settle,
        if_neg (by dsimp only; omega), if_pos (.inr rfl)]

theorem NumericFor.Starts.inBlock (h : L.Starts s count init limit step)
    (hrange : InRange step.toInt init.toInt limit.toInt) :
    InBlock L maxLoop count init limit step { s with
      pc := L.loop + 1
      regs := counted L.base s.regs init
      entries := [.num init] } init 0 where
  lt := Nat.lt_succ_self _
  le := L.loop_lt_loopend
  regIdx := counted_idx ..
  regStop := (counted_of_ne (by rw [forlStop]; omega) (by rw [forlStop]; omega)).trans h.limit
  regStep := (counted_of_ne (by rw [forlStep]; omega) (by rw [forlStep]; omega)).trans h.step
  length := rfl
  last := rfl
  toInt := by omega
  inRange := hrange
  entries := Entered.concat (l := []) nofun (by rw [length_nil]; omega) hrange
  checks := by
    rw [h.loopCount]
    exact Nat.le_refl _

theorem InBlock.next (h : InBlock L maxLoop count init limit step s n k)
    (hnext : (n + step).toInt = init.toInt + (k + 1 : ℕ) * step.toInt)
    (hrange : InRange step.toInt (n + step).toInt limit.toInt) (hcount : s.loopCount ≠ maxLoop) :
    InBlock L maxLoop count init limit step {
      pc := L.loop + 1
      regs := counted L.base s.regs (n + step)
      loopCount := s.loopCount + 1
      entries := s.entries ++ [.num (n + step)] } (n + step) (k + 1) := by
  have hlength : (s.entries ++ [Val.num (n + step)]).length = k + 1 + 1 := by
    rw [length_append, h.length]
    rfl
  refine ⟨Nat.lt_succ_self _, L.loop_lt_loopend, counted_idx .., ?_, ?_, hlength,
    getLast?_concat, hnext, hrange, h.entries.concat (by rw [h.length]; exact hnext) hrange, ?_⟩
  · exact (counted_of_ne (by rw [forlStop]; omega) (by rw [forlStop]; omega)).trans h.regStop
  · exact (counted_of_ne (by rw [forlStep]; omega) (by rw [forlStep]; omega)).trans h.regStep
  · have hchecks := h.checks
    dsimp only
    rw [hlength]
    rw [h.length] at hchecks
    bv_omega

theorem good_fori (hc : Counts maxLoop count init limit step)
    (h : L.Starts s count init limit step) (e : Effect σ) :
    WellCounted L maxLoop count init limit step (L.round maxLoop s e) := by
  have hin : forTest init limit step = true ↔ InRange step.toInt init.toInt limit.toInt := by
    rw [forTest_iff, or_iff_left]
    rintro ⟨hzero, hle⟩
    have := hc.1 (BitVec.eq_of_toInt_eq hzero)
    omega
  rw [h.round_eq]
  by_cases htest : forTest init limit step = true
  · have hrange := hin.mp htest
    rw [if_pos htest]
    exact (h.inBlock hrange).good
  · have hrange := mt hin.mpr htest
    rw [if_neg htest]
    refine ⟨⟨?_, ?_, ⟨init, 0, h.idx, by omega, .inl ?_⟩, nofun, ?_⟩, nofun⟩
    · change Entered init limit step s.entries
      rw [h.entries]
      exact nofun
    · rintro s' ⟨rfl⟩
      dsimp only
      rw [h.entries, length_nil]
      simpa using hrange
    · change s.entries.length = _
      rw [h.entries]
      rfl
    · change s.entries.length ≤ _
      rw [h.entries]
      exact Nat.zero_le _

theorem InBlock.toInt_of_fits (h : InBlock L maxLoop count init limit step s n k)
    (hfits : Fits (init.toInt + (k + 1 : ℕ) * step.toInt)) :
    (n + step).toInt = init.toInt + (k + 1 : ℕ) * step.toInt := by
  have hsum : n.toInt + step.toInt = init.toInt + (k + 1 : ℕ) * step.toInt := by
    rw [h.toInt, Nat.cast_succ, Int.add_mul, Int.one_mul, Int.add_assoc]
  rw [← hsum] at hfits ⊢
  exact toInt_add_of_fits hfits

theorem fits_of_lt (h : k < iterations init limit step) :
    Fits (init.toInt + k * step.toInt) := by
  have hk := (inRange_iff init limit step k).mpr h
  have hfi := fits_toInt init
  have hfl := fits_toInt limit
  rw [InRange] at hk
  rw [Fits] at *
  rcases hk with ⟨hpos, hle⟩ | ⟨hneg, hle⟩
  · have hstep : 0 ≤ (k : ℤ) * step.toInt := mul_nonneg (Int.natCast_nonneg k) hpos.le
    omega
  · have hstep : (k : ℤ) * step.toInt ≤ 0 :=
      mul_nonpos_of_nonneg_of_nonpos (Int.natCast_nonneg k) hneg.le
    omega

theorem InBlock.lt_iterations (h : InBlock L maxLoop count init limit step s n k) :
    k < iterations init limit step := by
  rw [← inRange_iff, ← h.toInt]
  exact h.inRange

section

variable (hc : Counts maxLoop count init limit step)
  (h : InBlock L maxLoop count init limit step s n k)

include hc h

theorem InBlock.next_toInt :
    (n + step).toInt = init.toInt + (k + 1 : ℕ) * step.toInt := by
  have hk := h.lt_iterations
  refine h.toInt_of_fits ?_
  by_cases hnext : k + 1 < iterations init limit step
  · exact fits_of_lt hnext
  · have hlast : iterations init limit step = k + 1 := by omega
    have hcheck := h.checks
    rw [h.length] at hcheck
    have hfits := hc.2 (by omega) (by omega)
    rwa [hlast] at hfits

theorem InBlock.round_forl (hpc : s.pc = L.loopend) (e : Effect σ) :
    WellCounted L maxLoop count init limit step (L.round maxLoop s e) := by
  have hchecks := h.checks
  have hnext := h.next_toInt hc
  have hin : forTest (n + step) limit step = true ↔
      InRange step.toInt (n + step).toInt limit.toInt := by
    rw [forTest_iff, or_iff_left]
    rintro ⟨hzero, -⟩
    have hr := h.inRange
    rw [InRange] at hr
    omega
  rw [round_forl_eq hpc h.regIdx h.regStop h.regStep]
  by_cases htest : forTest (n + step) limit step = true
  · have hrange := hin.mp htest
    rw [if_pos htest]
    split
    · refine good_of_stop nofun nofun h.entries ?_ (counted_idx ..) hnext (.inl h.length)
      change s.entries.length ≤ _
      omega
    · rename_i hcount
      exact (h.next hnext hrange hcount).good
  · have hrange := mt hin.mpr htest
    rw [if_neg htest]
    split
    · refine good_of_stop nofun nofun h.entries ?_ h.regIdx h.toInt (.inr h.length)
      change s.entries.length ≤ _
      omega
    · refine ⟨⟨h.entries, ?_, ⟨n, k, h.regIdx, h.toInt, .inr h.length⟩, nofun, ?_⟩, nofun⟩
      · rintro s' ⟨rfl⟩
        dsimp only
        rw [h.length, ← hnext]
        exact hrange
      · change s.entries.length ≤ _
        omega

end

/-- **A run of a loop** whose counter fits meets the claim. -/
theorem good_of_runs (hc : Counts maxLoop count init limit step)
    (h : L.Starts s count init limit step) {o : Outcome σ} (hruns : L.Runs maxLoop s o) :
    WellCounted L maxLoop count init limit step o := by
  induction hruns with
  | start =>
    refine ⟨⟨?_, nofun, ⟨init, 0, h.idx, by omega, .inl ?_⟩, ?_, ?_⟩, ?_⟩
    · change Entered init limit step s.entries
      rw [h.entries]
      exact nofun
    · change s.entries.length = _
      rw [h.entries]
      rfl
    · rintro s' ⟨rfl⟩ hpc
      exact absurd h.pc hpc
    · change s.entries.length ≤ _
      rw [h.entries]
      exact Nat.zero_le _
    · rintro s' ⟨rfl⟩
      exact .inl h
  | round e _ ih =>
    rcases ih.state _ rfl with hstart | ⟨n, k, hin⟩
    · exact good_fori hc hstart e
    · rcases Nat.lt_or_eq_of_le hin.le with hlt | heq
      · exact hin.round_block hlt e
      · exact hin.round_forl hc heq e

end counts

end Ktap.Vm
