import ReadingComment.Ktap.ConstFold

/-!
# Divisions (`runtime/kp_vm.c`, `userspace/kp_parse.c`)

An operator becomes an instruction of one of three forms, by which operand is a constant.
Here a register is what the frame holds, a type word and 64 bits. The forms with a
constant look at the divisor before they look at the types; the form with two registers
does not. A run may do anything between two divisions, so a frame is whatever the
instructions before have left.
-/

namespace Ktap.User

/-- The form of an instruction: which of its operands is a constant. -/
inductive ArithForm where
  | vn
  | nv
  | vv
  deriving DecidableEq, Repr

/-- How an arithmetic instruction ends the dispatch loop. -/
inductive ArithErr where
  /-- "divide 0 arith operation\n" -/
  | divideZero
  /-- "mod 0 arith operation\n" -/
  | modZero
  /-- "Error: Cannot make arith operation\n" -/
  | operands
  /-- the processor faults -/
  | fault
  deriving DecidableEq, Repr

/-- `base` and `kbase` of a function that runs. -/
structure DivFrame where
  base : ℕ → TVal
  kbase : ℕ → Number

/-- `set_number(RA, op(x, y))`. -/
def setArith (f : DivFrame) (o : ArithOpr) (a : ℕ) (x y : Number) : Except ArithErr DivFrame :=
  match o.compute x y with
  | .ok n => .ok { f with base := Function.update f.base a (.number n) }
  | _ => .error .fault

def zeroErr (o : ArithOpr) : ArithErr := if o = .mod then .modZero else .divideZero

/-- The check in front of a division. -/
def divideCheck (o : ArithOpr) (nvalue : BitVec 64) : Except ArithErr Unit :=
  if o.divides ∧ nvalue = 0 then .error (zeroErr o) else .ok ()

/-- `arith_VV(ks, op)`. -/
def arithVV (f : DivFrame) (o : ArithOpr) (a b c : ℕ) : Except ArithErr DivFrame :=
  if (f.base b).isNumber ∧ (f.base c).isNumber then
    setArith f o a (f.base b).word (f.base c).word
  else .error .operands

/-- `arith_VN(ks, op)`. -/
def arithVN (f : DivFrame) (o : ArithOpr) (a b c : ℕ) : Except ArithErr DivFrame :=
  if (f.base b).isNumber then setArith f o a (f.base b).word (f.kbase c)
  else .error .operands

/-- `arith_NV(ks, op)`. -/
def arithNV (f : DivFrame) (o : ArithOpr) (a b c : ℕ) : Except ArithErr DivFrame :=
  if (f.base b).isNumber then setArith f o a (f.kbase c) (f.base b).word
  else .error .operands

/-- `DO_BC_ADDVN` to `DO_BC_MODVV`. -/
def arithStep (f : DivFrame) (o : ArithOpr) (form : ArithForm) (a b c : ℕ) :
    Except ArithErr DivFrame :=
  match form with
  | .vn => do
    divideCheck o (f.kbase c)
    arithVN f o a b c
  | .nv => do
    divideCheck o (f.base b).word
    arithNV f o a b c
  | .vv => arithVV f o a b c

/-! ## One instruction -/

def ArithForm.left (form : ArithForm) (f : DivFrame) (b c : ℕ) : TVal :=
  match form with
  | .nv => .number (f.kbase c)
  | _ => f.base b

def ArithForm.right (form : ArithForm) (f : DivFrame) (b c : ℕ) : TVal :=
  match form with
  | .vn => .number (f.kbase c)
  | .nv => f.base b
  | .vv => f.base c

/-- The instruction does not fault, and a divisor of zero is reported. -/
structure SafeDivision (f : DivFrame) (o : ArithOpr) (form : ArithForm) (a b c : ℕ) : Prop where
  noFault : arithStep f o form a b c ≠ .error .fault
  zero : o.divides = true → form.right f b c = .number 0 →
    arithStep f o form a b c = .error (zeroErr o)

def Divisible (f : DivFrame) (o : ArithOpr) (form : ArithForm) (b c : ℕ) : Prop :=
  o.divides = true → ¬ (form = .vv ∧ form.right f b c = .number 0) ∧
    ¬ (form.left f b c = .number longMin ∧ form.right f b c = .number (-1))

section instruction

variable {f : DivFrame} {o : ArithOpr} {form : ArithForm} {a b c : ℕ} {x y : Number} {v : TVal}

theorem eq_number_iff {n : Number} : v = .number n ↔ v.isNumber = true ∧ v.word = n := by
  obtain ⟨ty, w⟩ := v
  constructor
  · intro h
    cases h
    exact ⟨rfl, rfl⟩
  · rintro ⟨hty, rfl⟩
    rw [TVal.number, TVal.mk.injEq]
    exact ⟨eq_of_beq hty, rfl⟩

/-- The processor does not divide these. -/
def Faults (o : ArithOpr) (x y : Number) : Prop :=
  o.divides = true ∧ (y = 0 ∨ x = longMin ∧ y = -1)

theorem setArith_of_faults (h : Faults o x y) : setArith f o a x y = .error .fault := by
  obtain ⟨hdiv, hxy⟩ := h
  rw [setArith]
  cases o with
  | add | sub | mul => cases hdiv
  | div | mod => rw [ArithOpr.compute, if_pos hxy]

theorem setArith_of_not_faults (h : ¬ Faults o x y) : ∃ f', setArith f o a x y = .ok f' := by
  rw [setArith]
  cases o with
  | add | sub | mul => exact ⟨_, rfl⟩
  | div | mod =>
    have hxy : ¬ (y = 0 ∨ x = longMin ∧ y = -1) := fun hxy => h ⟨rfl, hxy⟩
    rw [ArithOpr.compute, if_neg hxy]
    exact ⟨_, rfl⟩

theorem divideCheck_bind (o : ArithOpr) (n : BitVec 64) (r : Except ArithErr DivFrame) :
    (divideCheck o n >>= fun _ => r) =
      if o.divides = true ∧ n = 0 then .error (zeroErr o) else r := by
  rw [divideCheck]
  split <;> rfl

theorem arithStep_numbers (hl : form.left f b c = .number x) (hr : form.right f b c = .number y) :
    arithStep f o form a b c =
      if form ≠ .vv ∧ o.divides = true ∧ y = 0 then .error (zeroErr o)
      else setArith f o a x y := by
  cases form with
  | vn =>
    obtain ⟨hty, hx⟩ := eq_number_iff.mp (show f.base b = .number x from hl)
    obtain rfl : f.kbase c = y := (TVal.mk.inj hr).2
    rw [arithStep, divideCheck_bind, arithVN, if_pos hty, hx]
    simp only [ne_eq, reduceCtorEq, not_false_eq_true, true_and]
  | nv =>
    obtain ⟨hty, hy⟩ := eq_number_iff.mp (show f.base b = .number y from hr)
    obtain rfl : f.kbase c = x := (TVal.mk.inj hl).2
    rw [arithStep, divideCheck_bind, arithNV, if_pos hty, hy]
    simp only [ne_eq, reduceCtorEq, not_false_eq_true, true_and]
  | vv =>
    obtain ⟨hty, hx⟩ := eq_number_iff.mp (show f.base b = .number x from hl)
    obtain ⟨hty', hy⟩ := eq_number_iff.mp (show f.base c = .number y from hr)
    rw [arithStep, arithVV, if_pos ⟨hty, hty'⟩, hx, hy, if_neg fun h => h.1 rfl]

theorem arithStep_not_number
    (h : ¬ ((form.left f b c).isNumber = true ∧ (form.right f b c).isNumber = true)) :
    arithStep f o form a b c = .error (zeroErr o) ∨
      arithStep f o form a b c = .error .operands := by
  cases form with
  | vn =>
    have hty : ¬ (f.base b).isNumber = true := fun hb => h ⟨hb, rfl⟩
    rw [arithStep, divideCheck_bind, arithVN, if_neg hty]
    split
    · exact .inl rfl
    · exact .inr rfl
  | nv =>
    have hty : ¬ (f.base b).isNumber = true := fun hb => h ⟨rfl, hb⟩
    rw [arithStep, divideCheck_bind, arithNV, if_neg hty]
    split
    · exact .inl rfl
    · exact .inr rfl
  | vv => exact .inr (if_neg h)

theorem arithStep_zero (hform : form ≠ .vv) (hdiv : o.divides = true)
    (hr : form.right f b c = .number 0) : arithStep f o form a b c = .error (zeroErr o) := by
  cases form with
  | vn =>
    have hzero : f.kbase c = 0 := (TVal.mk.inj hr).2
    rw [arithStep, divideCheck_bind, if_pos ⟨hdiv, hzero⟩]
  | nv =>
    have hzero : (f.base b).word = 0 := (eq_number_iff.mp (show f.base b = .number 0 from hr)).2
    rw [arithStep, divideCheck_bind, if_pos ⟨hdiv, hzero⟩]
  | vv => exact absurd rfl hform

theorem zeroErr_ne_fault (o : ArithOpr) : zeroErr o ≠ .fault := by
  rw [zeroErr]
  split <;> exact nofun

theorem zeroErr_ne_operands (o : ArithOpr) : zeroErr o ≠ .operands := by
  rw [zeroErr]
  split <;> exact nofun

theorem arithStep_fault_iff : arithStep f o form a b c = .error .fault ↔
    ∃ x y, form.left f b c = .number x ∧ form.right f b c = .number y ∧ Faults o x y ∧
      ¬ (form ≠ .vv ∧ y = 0) := by
  by_cases hnum : (form.left f b c).isNumber = true ∧ (form.right f b c).isNumber = true
  · have hl : form.left f b c = .number (form.left f b c).word := eq_number_iff.mpr ⟨hnum.1, rfl⟩
    have hr : form.right f b c = .number (form.right f b c).word := eq_number_iff.mpr ⟨hnum.2, rfl⟩
    rw [arithStep_numbers hl hr]
    constructor
    · intro h
      split at h
      · exact absurd (Except.error.inj h) (zeroErr_ne_fault o)
      · rename_i hcheck
        by_cases hf : Faults o (form.left f b c).word (form.right f b c).word
        · exact ⟨_, _, hl, hr, hf, fun hzero => hcheck ⟨hzero.1, hf.1, hzero.2⟩⟩
        · obtain ⟨f', hok⟩ := setArith_of_not_faults (f := f) (a := a) hf
          rw [hok] at h
          cases h
    · rintro ⟨x, y, hx, hy, hf, hcheck⟩
      rw [hx, hy, if_neg fun h => hcheck ⟨h.1, h.2.2⟩]
      exact setArith_of_faults hf
  · constructor
    · intro h
      rcases arithStep_not_number (o := o) (a := a) hnum with he | he
      · rw [he] at h
        exact absurd (Except.error.inj h) (zeroErr_ne_fault o)
      · rw [he] at h
        cases h
    · rintro ⟨x, y, hx, hy, -⟩
      rw [hx, hy] at hnum
      exact absurd ⟨rfl, rfl⟩ hnum

theorem arithVV_not_zeroErr : arithStep f o .vv a b c ≠ .error (zeroErr o) := by
  intro h
  change arithVV f o a b c = _ at h
  rw [arithVV] at h
  split at h
  · by_cases hf : Faults o (f.base b).word (f.base c).word
    · rw [setArith_of_faults hf] at h
      exact absurd (Except.error.inj h).symm (zeroErr_ne_fault o)
    · obtain ⟨f', hok⟩ := setArith_of_not_faults (f := f) (a := a) hf
      rw [hok] at h
      cases h
  · exact absurd (Except.error.inj h).symm (zeroErr_ne_operands o)

theorem safeDivision_iff : SafeDivision f o form a b c ↔ Divisible f o form b c := by
  constructor
  · intro h hdiv
    refine ⟨?_, ?_⟩
    · rintro ⟨rfl, hzero⟩
      exact arithVV_not_zeroErr (h.zero hdiv hzero)
    · rintro ⟨hl, hr⟩
      refine h.noFault (arithStep_fault_iff.mpr ⟨_, _, hl, hr, ⟨hdiv, .inr ⟨rfl, rfl⟩⟩, ?_⟩)
      rintro ⟨-, hzero⟩
      cases hzero
  · intro h
    refine ⟨fun hfault => ?_, fun hdiv hzero => ?_⟩
    · obtain ⟨x, y, hl, hr, ⟨hdiv, hxy⟩, hcheck⟩ := arithStep_fault_iff.mp hfault
      rcases hxy with rfl | ⟨rfl, rfl⟩
      · exact (h hdiv).1 ⟨not_not.mp fun hform => hcheck ⟨hform, rfl⟩, hr⟩
      · exact (h hdiv).2 ⟨hl, hr⟩
    · exact arithStep_zero (fun hform => (h hdiv).1 ⟨hform, hzero⟩) hdiv hzero

end instruction

/-! ## Folding -/

theorem foldarith_fault_iff {op : BinOpr} {e1 e2 : ExpDesc} :
    foldarith op e1 e2 = .error .divide ↔
      ∃ x y, e1.numkNojump = some x ∧ e2.numkNojump = some y ∧ QuotientOverflow op x y := by
  rw [foldarith]
  split
  · rename_i x y hx hy
    rw [hx, hy]
    constructor
    · intro h
      split at h
      · cases h
      · rename_i hzero
        split at h
        · cases h
        · cases op <;> try cases h
          have hover : y = 0 ∨ x = longMin ∧ y = -1 := by
            by_contra hxy
            rw [numberFoldarith, ArithOpr.compute, if_neg hxy] at h
            cases h
          exact ⟨x, y, rfl, rfl, rfl, hover.resolve_left fun hy => hzero ⟨rfl, hy⟩⟩
    · rintro ⟨_, _, hx', hy', rfl, rfl, rfl⟩
      cases hx'
      cases hy'
      rfl
  · rename_i hnone
    constructor
    · intro h
      cases h
    · rintro ⟨x, y, hx, hy, -⟩
      exact absurd hy (hnone x y hx)

/-! ## Runs -/

/-- Where a run stands. -/
inductive DivRun where
  | running (f : DivFrame)
  | ended (e : ArithErr)

/-- An arithmetic instruction, or any other that leaves a frame. -/
inductive DivAction where
  | arith (o : ArithOpr) (form : ArithForm) (a b c : ℕ)
  | other (f : DivFrame)

/-- An instruction, or a change of the registers. -/
def DivRun.step : DivRun → DivAction → Except Unit DivRun
  | .running f, .arith o form a b c =>
    match arithStep f o form a b c with
    | .ok f => .ok (.running f)
    | .error e => .ok (.ended e)
  | .running _, .other f => .ok (.running f)
  | .ended _, _ => .error ()

/-- The divisions of one function. -/
def divMachine (f : DivFrame) : Lib.System DivRun DivAction Unit where
  init := .running f
  Allowed := fun _ _ => True
  step := DivRun.step

/-- The instruction that follows divides two numbers that can be divided. -/
def DivRun.Divides : DivRun → DivAction → Prop
  | .running f, .arith o form _ b c => Divisible f o form b c
  | _, _ => True

def DivRun.NoFault (s : DivRun) : Prop := s ≠ .ended .fault

theorem arithStep_running {f : DivFrame} {o : ArithOpr} {form : ArithForm} {a b c : ℕ} {s : DivRun}
    (hsafe : SafeDivision f o form a b c)
    (h : (DivRun.running f).step (.arith o form a b c) = .ok s) : s.NoFault := by
  rw [DivRun.step] at h
  split at h
  · cases h
    exact fun heq => DivRun.noConfusion heq
  · rename_i e he
    cases h
    intro heq
    obtain rfl := DivRun.ended.inj heq
    exact hsafe.noFault he

theorem divMachine_no_fault {f : DivFrame} {s : DivRun}
    (h : (divMachine f).Reach DivRun.Divides s) : s.NoFault := by
  refine h.invariant ?_ ?_
  · exact fun heq => DivRun.noConfusion heq
  · intro s a s' _ _ hok hs
    cases s with
    | ended e => cases hs
    | running f =>
      cases a with
      | other f' =>
        cases hs
        exact fun heq => DivRun.noConfusion heq
      | arith o form a b c => exact arithStep_running (safeDivision_iff.mpr hok) hs

/-- Divisions, in the machine and in the compiler, are safe where two registers are divided by no
zero and -2^63 by no -1. -/
theorem divisions_safe_iff (f : DivFrame) (o : ArithOpr) (form : ArithForm) (a b c : ℕ) :
    (SafeDivision f o form a b c ↔ Divisible f o form b c) ∧
    (∀ op e1 e2, foldarith op e1 e2 ≠ .error .divide ↔
      ∀ x y, e1.numkNojump = some x → e2.numkNojump = some y → ¬ QuotientOverflow op x y) ∧
    ∀ s, (divMachine f).Reach DivRun.Divides s → s ≠ .ended .fault := by
  refine ⟨safeDivision_iff, fun op e1 e2 => ?_, fun _ => divMachine_no_fault⟩
  rw [ne_eq, foldarith_fault_iff]
  constructor
  · exact fun h x y hx hy hover => h ⟨x, y, hx, hy, hover⟩
  · rintro h ⟨x, y, hx, hy, hover⟩
    exact h x y hx hy hover

def sevenAndTwo : DivFrame where
  base := fun r => if r = 0 then .number 7 else .number 2
  kbase := fun _ => 0

/-- `7 / 2` is divided, and the remainder of its result by the constant zero is reported. -/
theorem divisions_safe_iff_reported : ∃ f,
    (divMachine sevenAndTwo).Reach DivRun.Divides (.running f) ∧ f.base 2 = .number 3 ∧
      DivRun.running f ≠ .ended .fault ∧ SafeDivision f .mod .vn 3 2 0 ∧
        (DivRun.running f).step (.arith .mod .vn 3 2 0) = .ok (.ended .modZero) := by
  have hdivides : Divisible sevenAndTwo .div .vv 0 1 := by
    refine fun _ => ⟨fun h => ?_, fun h => ?_⟩
    · cases h.2
    · cases h.2
  have hinit : (divMachine sevenAndTwo).Reach DivRun.Divides (.running sevenAndTwo) := .init
  have hreach := hinit.next (.arith .div .vv 2 0 1) trivial hdivides rfl
  obtain ⟨hsafe, -, hruns⟩ := divisions_safe_iff sevenAndTwo .div .vv 2 0 1
  refine ⟨_, hreach, rfl, hruns _ hreach, (divisions_safe_iff _ .mod .vn 3 2 0).1.mpr fun _ => ?_,
    rfl⟩
  exact ⟨fun h => ArithForm.noConfusion h.1, fun h => absurd h.2 (by decide)⟩

def oneAndZero : DivFrame where
  base := fun r => if r = 0 then .number 1 else .number 0
  kbase := fun _ => 0

/-- `a / b` of two local variables faults where `b` is zero. -/
theorem divide_by_zero_faults :
    emitted (compileNext twoLocals (.binop .div (.operand (nameOf 0)) (.operand (nameOf 1)))
      afterLocals) = some (.init (.vnonreloc 2), [.abc (.vv .div) 2 0 1], []) ∧
    arithStep oneAndZero .div .vv 2 0 1 = .error .fault ∧
    ¬ SafeDivision oneAndZero .div .vv 2 0 1 :=
  ⟨emitted_divide_locals false, rfl, fun h => h.noFault rfl⟩

end Ktap.User
