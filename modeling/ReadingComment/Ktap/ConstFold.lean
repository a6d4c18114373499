import ReadingComment.Ktap.EmitSteps

/-!
# Constant folding (`userspace/kp_parse.c`)

The code of an arithmetic operator whose operands are constants or local variables, in
every combination, and what it computes. A constant is folded into another one, becomes a
field of the instruction or is loaded into a register first.
-/

namespace Ktap.User

open Function Lib List

/-! ## Operands of an instruction -/

section operands

variable {fs fs' : EmitState} {e e' : ExpDesc} {K : Consts (BitVec 64)} {ρ : Regs (BitVec 64)}
  {x y : Number} {k k1 k2 : ExpKind} {m : ℕ}

/-- What `expr_toval` and `expr_toanyreg` make of a local variable. -/
def discharged : ExpKind → ExpKind
  | .vlocal r => .vnonreloc r
  | k => k

theorem IsOperand.discharged (h : IsOperand ρ m x k) : IsOperand ρ m x (discharged k) := by
  cases h with
  | num => exact .num
  | «local» hr hx => exact .nonreloc hr hx
  | nonreloc hr hx => exact .nonreloc hr hx

theorem IsOperand.exprDischarge (h : IsOperand ρ m x k) (fs : EmitState) :
    exprDischarge (.init k) fs = .ok (.init (User.discharged k), fs) := by
  cases h <;> rfl

theorem IsOperand.exprToval (h : IsOperand ρ m x k) (fs : EmitState) :
    exprToval (.init k) fs = .ok (.init (User.discharged k), fs) := by
  rw [User.exprToval, init_hasjump]
  exact h.exprDischarge fs

theorem IsOperand.exprToanyreg (hk : IsOperand ρ m x k) (hm : m ≤ fs.freereg) (hr : fs.Regular)
    (h : exprToanyreg (.init k) fs = .ok (e', fs')) :
    ∃ is r, e' = .init (.vnonreloc r) ∧ Grows fs fs' is ∧ fs'.Regular ∧
      fs.freereg ≤ fs'.freereg ∧ r < fs'.freereg ∧ ∀ K, Agrees K fs'.consts → ∀ ρ',
        (∀ q < m, ρ' q = ρ q) → Loads K ρ' fs.freereg x is r := by
  rw [User.exprToanyreg] at h
  obtain ⟨⟨e₁, fs₁⟩, hdis, h⟩ := bind_eq_ok h
  rw [hk.exprDischarge fs] at hdis
  cases hdis
  cases hk with
  | num =>
    obtain ⟨ins, rfl, hg, hr', hfree, ha, hkind, hval⟩ := exprTonextreg_num hr h
    refine ⟨[ins], fs.freereg, rfl, hg, hr', by omega, by omega, fun K hK ρ' _ => ⟨?_, ?_⟩⟩
    · intro i hi
      rwa [mem_singleton.mp hi]
    · refine ⟨update ρ' fs.freereg (.num x), ?_, update_self .., fun q hq =>
        update_of_ne hq.ne ..⟩
      rw [execAll, hval K hK, ha]
      rfl
  | «local» hlt hx | nonreloc hlt hx =>
    cases h
    exact ⟨[], _, rfl, .refl fs, hr, Nat.le_refl _, by omega, fun K _ ρ' hρ' =>
      .nil ((hρ' _ hlt).trans hx)⟩

theorem constOperand_grows {c : Option ℕ} (h : constOperand e fs = .ok (c, fs')) :
    Grows fs fs' [] ∧ fs'.freereg = fs.freereg ∧ fs'.framesize = fs.framesize ∧
      ∀ i, c = some i → i ≤ bcmaxC ∧ ∃ n, e.k = .vknum n ∧
        ∀ K, Agrees K fs'.consts → K.num i = .ok (.num n) := by
  rw [constOperand, ExpDesc.numk] at h
  split at h
  · rename_i n hn
    obtain ⟨⟨c', fs₁⟩, hc, h⟩ := bind_eq_ok h
    cases h
    obtain ⟨hg, hmem, hfree, hframe⟩ := constNum_grows hc
    refine ⟨hg, hfree, hframe, fun i hi => ?_⟩
    split at hi
    · rename_i hle
      cases hi
      have hk : e.k = .vknum n := by
        split at hn
        · rename_i hk
          cases hn
          exact hk
        · cases hn
      refine ⟨hle, n, hk, fun K hK => ?_⟩
      rw [Consts.num, (hK.num n _ hmem).1]
    · cases hi
  · cases h
    exact ⟨.refl fs, rfl, rfl, by rintro _ ⟨⟩⟩

theorem abc_b_c (op : BCOp) (a : ℕ) {b c : ℕ} (hb : b < 256) (hc : c < 256) :
    (Ins.abc op a b c).b = b ∧ (Ins.abc op a b c).c = c := by
  rw [Ins.b, Ins.c, Ins.abc]
  dsimp only
  omega

/-- The instruction that an operator becomes computes it, with or without a check of the divisor. -/
def Computes (K : Consts (BitVec 64)) (o : ArithOpr) (x y : Number) (ins : Ins)
    (ρ : Regs (BitVec 64)) : Prop :=
  value K ins ρ = arith o (.num x) (.num y) ∨ value K ins ρ = arithChecked o (.num x) (.num y)

theorem arithOperands_spec {o : ArithOpr} {ins : Ins} {e1' e2' : ExpDesc}
    (h1 : IsOperand ρ m x k1) (h2 : IsOperand ρ m y k2) (hm : m ≤ fs.freereg) (hr : fs.Regular)
    (h : arithOperands o (.init k1) (.init k2) fs = .ok (ins, e1', e2', fs')) :
    ∃ is, Grows fs fs' is ∧ (∃ k, e1' = .init k) ∧ ins.op.kind = .value ∧ ∀ K, Agrees K fs'.consts →
      ∃ ρ', (∀ i ∈ is, i.op.kind = .value) ∧ execAll K is ρ = .ok ρ' ∧ Computes K o x y ins ρ' := by
  rw [arithOperands] at h
  obtain ⟨⟨e, fs₁⟩, hval2, h⟩ := bind_eq_ok h
  rw [h2.exprToval fs] at hval2
  cases hval2
  dsimp only at h
  obtain ⟨⟨c2, fs₂⟩, hc2, h⟩ := bind_eq_ok h
  obtain ⟨hg₂, hfree₂, hframe₂, hconst2⟩ := constOperand_grows hc2
  have hr₂ := hr.congr hg₂.nactvar hfree₂ hframe₂
  dsimp only at h
  cases c2 with
  | some rc =>
    obtain ⟨hle, n, hkn, hnum⟩ := hconst2 rc rfl
    have hy : n = y := by
      cases h2 with
      | num =>
        cases hkn
        rfl
      | «local» => cases hkn
      | nonreloc => cases hkn
    subst hy
    obtain ⟨⟨e, fs₃⟩, hval1, h⟩ := bind_eq_ok h
    rw [h1.exprToval fs₂] at hval1
    cases hval1
    dsimp only at h
    obtain ⟨⟨e, fs₄⟩, hany, h⟩ := bind_eq_ok h
    cases h
    obtain ⟨is, r, rfl, hg, hr', hfree, hlt, hload⟩ :=
      h1.discharged.exprToanyreg (by omega) hr₂ hany
    refine ⟨is, hg₂.trans hg, ⟨_, rfl⟩, rfl, fun K hK => ?_⟩
    obtain ⟨hkind, ρ', hexec, hx, -⟩ := hload K hK ρ fun _ _ => rfl
    refine ⟨ρ', hkind, hexec, .inr ?_⟩
    have hframe := hr'.freereg_le
    have hframe' := hr'.framesize_lt
    rw [kpMaxSlots] at hframe'
    rw [bcmaxC] at hle
    obtain ⟨hb, hc⟩ := abc_b_c (.vn o) 0 (show r < 256 by omega) (show rc < 256 by omega)
    change (K.num (Ins.abc (.vn o) 0 r rc).c).bind
      (fun k => arithChecked o (ρ' (Ins.abc (.vn o) 0 r rc).b) k) = _
    rw [hb, hc, hnum K (hK.of_suffix hg.given), hx]
    rfl
  | none =>
    obtain ⟨⟨e, fs₃⟩, hany2, h⟩ := bind_eq_ok h
    obtain ⟨is, r, rfl, hg₃, hr₃, hfree₃, hlt₃, hload⟩ :=
      h2.discharged.exprToanyreg (by omega) hr₂ hany2
    obtain ⟨⟨e, fs₄⟩, hval1, h⟩ := bind_eq_ok h
    rw [h1.exprToval fs₃] at hval1
    cases hval1
    dsimp only at h
    obtain ⟨⟨c1, fs₅⟩, hc1, h⟩ := bind_eq_ok h
    obtain ⟨hg₅, hfree₅, hframe₅, hconst1⟩ := constOperand_grows hc1
    have hr₅ := hr₃.congr hg₅.nactvar hfree₅ hframe₅
    dsimp only at h
    cases c1 with
    | some t =>
      obtain ⟨hle, n, hkn, hnum⟩ := hconst1 t rfl
      have hx : n = x := by
        cases h1 with
        | num =>
          cases hkn
          rfl
        | «local» => cases hkn
        | nonreloc => cases hkn
      subst hx
      cases h
      refine ⟨is, ?_, ⟨_, rfl⟩, rfl, fun K hK => ?_⟩
      · have hg := (hg₂.trans hg₃).trans hg₅
        rwa [append_nil] at hg
      · obtain ⟨hkind, ρ', hexec, hy, -⟩ := hload K (hK.of_suffix hg₅.given) ρ fun _ _ => rfl
        refine ⟨ρ', hkind, hexec, .inr ?_⟩
        have hframe := hr₃.freereg_le
        have hframe' := hr₃.framesize_lt
        rw [kpMaxSlots] at hframe'
        rw [bcmaxC] at hle
        obtain ⟨hb, hc⟩ := abc_b_c (.nv o) 0 (show r < 256 by omega) (show t < 256 by omega)
        change (K.num (Ins.abc (.nv o) 0 r t).c).bind
          (fun k => arithChecked o k (ρ' (Ins.abc (.nv o) 0 r t).b)) = _
        rw [hb, hc, hnum K hK, hy]
        rfl
    | none =>
      obtain ⟨⟨e, fs₆⟩, hany1, h⟩ := bind_eq_ok h
      cases h
      obtain ⟨js, r', rfl, hg₆, hr₆, hfree₆, hlt₆, hload1⟩ :=
        h1.discharged.exprToanyreg (by omega) hr₅ hany1
      refine ⟨is ++ js, ?_, ⟨_, rfl⟩, rfl, fun K hK => ?_⟩
      · have hg := ((hg₂.trans hg₃).trans hg₅).trans hg₆
        rwa [nil_append, append_nil] at hg
      · obtain ⟨hkind, ρ', hexec, hy, hsame⟩ :=
          hload K (hK.of_suffix (hg₅.given.trans hg₆.given)) ρ fun _ _ => rfl
        obtain ⟨hkind', ρ'', hexec', hx, hsame'⟩ :=
          hload1 K hK ρ' fun q hq => hsame q (by omega)
        refine ⟨ρ'', fun i hi => (mem_append.mp hi).elim (hkind i) (hkind' i), ?_, .inl ?_⟩
        · rw [execAll_append, hexec]
          exact hexec'
        · have hframe := hr₆.freereg_le
          have hframe' := hr₆.framesize_lt
          rw [kpMaxSlots] at hframe'
          obtain ⟨hb, hc⟩ := abc_b_c (.vv o) 0 (show r' < 256 by omega) (show r < 256 by omega)
          change arith o (ρ'' (Ins.abc (.vv o) 0 r' r).b) (ρ'' (Ins.abc (.vv o) 0 r' r).c) = _
          rw [hb, hc, hx, hsame' r (by omega), hy]

end operands

/-! ## The instruction, and its register -/

section results

variable {fs fs' fs₁ : EmitState} {e e' : ExpDesc} {K : Consts (BitVec 64)} {ρ : Regs (BitVec 64)}
  {x y : Number} {k k1 k2 : ExpKind} {m : ℕ}

variable {is : List Ins}

theorem Grows.ends (hg : Grows fs fs' is) (hkind : ∀ i ∈ is, i.op.kind = .value)
    (K : Consts (BitVec 64)) (ρ : Regs (BitVec 64)) (reg : ℕ) :
    Yields (insAt fs'.code) K fs'.pc reg ⟨fs.pc, ρ⟩
      ((execAll K is ρ).bind fun ρ' => .ok (ρ' reg)) := by
  rw [hg.pc_eq]
  exact .of_execAll hkind (fun n _ => hg.insAt_eq n) ρ reg

theorem exprTonextreg_relocable {ins : Ins} {k : ExpKind} (hg : Grows fs fs₁ (is ++ [ins]))
    (h : exprTonextreg { ExpDesc.init k with k := .vrelocable (fs.pc + is.length) } fs₁ =
      .ok (e', fs')) :
    ∃ reg, e' = .init (.vnonreloc reg) ∧ Grows fs fs' (is ++ [{ ins with a := reg }]) ∧
      fs₁.consts.given <:+ fs'.consts.given := by
  rw [exprTonextreg] at h
  obtain ⟨⟨e₁, fs₂⟩, hdis, h⟩ := bind_eq_ok h
  cases hdis
  obtain ⟨fs₂, hres, h⟩ := bind_eq_ok h
  change bcregReserve 1 fs₁ = .ok fs₂ at hres
  obtain ⟨hg₂, -⟩ := bcregReserve_grows hres
  cases h
  have hg' := hg.trans hg₂
  rw [append_nil] at hg'
  refine ⟨fs₂.freereg - 1, rfl, ?_, hg₂.given⟩
  have hins : insAt fs₂.code (fs.pc + is.length) = ins := by
    rw [hg'.insAt_eq, insAt, getElem?_append_right (Nat.le_refl _), Nat.sub_self]
    rfl
  dsimp only
  rw [hins]
  exact hg'.setLast

theorem value_congr (K : Consts (BitVec 64)) (ins : Ins) (a : ℕ) (ρ : Regs (BitVec 64)) :
    value K { ins with a := a } ρ = value K ins ρ := rfl

theorem execAll_concat {ins : Ins} {ρ' : Regs (BitVec 64)} (h : execAll K is ρ = .ok ρ') (reg : ℕ) :
    ((execAll K (is ++ [{ ins with a := reg }]) ρ).bind fun ρ'' => .ok (ρ'' reg)) =
      value K ins ρ' := by
  rw [execAll_append, h]
  change ((value K { ins with a := reg } ρ').bind _).bind _ = _
  rw [value_congr, Res.bind_assoc]
  have hread : ∀ v : Val (BitVec 64), ((execAll K [] (update ρ' reg v)).bind
      fun ρ'' => Res.ok (ρ'' reg)) = .ok v := by
    intro v
    change Res.ok (update ρ' reg v reg) = _
    rw [update_self]
  cases value K ins ρ' with
  | ok v => exact hread v
  | err => rfl
  | fault => rfl
  | stuck => rfl

theorem IsOperand.bcemitBinopLeft {op : BinOpr} {o : ArithOpr} (hop : op.arith = some o)
    (h : IsOperand ρ m x k) (fs : EmitState) :
    bcemitBinopLeft op (.init k) fs = .ok (.init (User.discharged k), fs) := by
  have hleft : User.bcemitBinopLeft op (.init k) fs =
      if (ExpDesc.init k).numkNojump.isSome then .ok (.init k, fs)
      else User.exprToanyreg (.init k) fs := by
    cases op <;> first | rfl | cases hop
  rw [hleft]
  cases h <;> rfl

end results

/-! ## Literals and variables -/

/-- The code of an expression, with its value in the next register. -/
def compileNext (lookup : TVal → ExpKind) (t : Tree) (fs : EmitState) :
    Except EmitErr (ExpDesc × EmitState) := do
  let (e, fs) ← build (exprActions lookup) t fs
  exprTonextreg e fs

/-- A token that stands for a number: a literal, or a local variable that holds it. -/
def Stands (lookup : TVal → ExpKind) (ρ : Regs (BitVec 64)) (n : ℕ) (x : Number) (a : Lexeme) :
    Prop :=
  operandKind lookup a = .vknum x ∨ ∃ r < n, operandKind lookup a = .vlocal r ∧ ρ r = .num x

theorem Stands.isOperand {lookup : TVal → ExpKind} {ρ : Regs (BitVec 64)} {n : ℕ} {x : Number}
    {a : Lexeme} (h : Stands lookup ρ n x a) : IsOperand ρ n x (operandKind lookup a) := by
  rcases h with hk | ⟨r, hr, hk, hx⟩
  · rw [hk]
    exact .num
  · rw [hk]
    exact .local hr hx

/-- The code of an operator with two numbers ends with `r`, whether they are literals or held in
variables of the function itself; a number in a variable of an enclosing function is not covered. -/
def Means (op : BinOpr) (x y : Number) (r : Res (Val (BitVec 64))) : Prop :=
  ∀ (lookup : TVal → ExpKind) (a b : Lexeme) (fs fs' : EmitState) (e : ExpDesc)
    (ρ : Regs (BitVec 64)) (K : Consts (BitVec 64)), fs.Regular →
    Stands lookup ρ fs.nactvar x a → Stands lookup ρ fs.nactvar y b →
    compileNext lookup (.binop op (.operand a) (.operand b)) fs = .ok (e, fs') →
    Agrees K fs'.consts → Yields (insAt fs'.code) K fs'.pc e.k.info ⟨fs.pc, ρ⟩ r

/-- What the instruction of an operator computes; `POW` is rejected. -/
def insValue (op : BinOpr) (x y : Number) : Res (Val (BitVec 64)) :=
  match op.arith with
  | some o => arith o (.num x) (.num y)
  | none => value ⟨[], []⟩ (.ad .pow 0 0) fun _ => .nil

/-- Two number constants are not folded, or to the value of the instruction. -/
def FoldsRight (op : BinOpr) (x y : Number) : Prop :=
  ∃ r, foldarith op (.init (.vknum x)) (.init (.vknum y)) = .ok r ∧
    ∀ n, r = some n → insValue op x y = .ok (.num n)

/-- `-`, for which the same is said. -/
def MinusRight (x : Number) : Prop :=
  ∀ (lookup : TVal → ExpKind) (a : Lexeme) (fs fs' : EmitState) (e : ExpDesc)
    (ρ : Regs (BitVec 64)) (K : Consts (BitVec 64)), fs.Regular →
    Stands lookup ρ fs.nactvar x a →
    compileNext lookup (.unop .unm (.operand a)) fs = .ok (e, fs') → Agrees K fs'.consts →
    Yields (insAt fs'.code) K fs'.pc e.k.info ⟨fs.pc, ρ⟩ (.ok (.num (-x)))

def BinOpr.isArith : BinOpr → Bool
  | .add | .sub | .mul | .div | .mod | .pow => true
  | _ => false

/-- A divisor of zero, which only the instruction for two variables does not check. -/
def ZeroDivisor (op : BinOpr) (y : Number) : Prop := (op = .div ∨ op = .mod) ∧ y = 0

def QuotientOverflow (op : BinOpr) (x y : Number) : Prop := op = .div ∧ x = longMin ∧ y = -1

section transparent

variable {op : BinOpr} {o : ArithOpr} {x y : Number}

section

variable (hop : op.arith = some o) (hzero : ¬ ZeroDivisor op y)

include hop hzero

theorem arithChecked_eq :
    arithChecked (σ := BitVec 64) o (.num x) (.num y) = arith o (.num x) (.num y) := by
  rw [arithChecked, if_neg]
  rintro ⟨hdiv, hy⟩
  refine hzero ⟨?_, Val.num.inj hy⟩
  cases op <;> cases hop <;> first | exact .inl rfl | exact .inr rfl | cases hdiv

theorem foldarith_spec (hover : ¬ QuotientOverflow op x y) :
    ∃ r, foldarith op (.init (.vknum x)) (.init (.vknum y)) = .ok r ∧
      ∀ n, r = some n → arith (σ := BitVec 64) o (.num x) (.num y) = .ok (.num n) := by
  cases op <;> cases hop
  case add | sub | mul => exact ⟨_, rfl, fun n hn => by cases hn; rfl⟩
  case mod => exact ⟨none, by rw [foldarith]; rfl, nofun⟩
  case div =>
    have hy : y ≠ 0 := fun hy => hzero ⟨.inl rfl, hy⟩
    have hfits : ¬ (y = 0 ∨ x = longMin ∧ y = -1) := by
      rintro (h | h)
      · exact hy h
      · exact hover ⟨rfl, h⟩
    have hcompute : ArithOpr.div.compute x y = .ok (x.sdiv y) := if_neg hfits
    refine ⟨some (x.sdiv y), ?_, fun n hn => ?_⟩
    · change (if BinOpr.div = .div ∧ y = 0 then _ else _) = _
      rw [if_neg fun h => hy h.2, if_neg nofun, numberFoldarith, hcompute]
      rfl
    · cases hn
      rw [arith, hcompute]

theorem means_arith (hover : ¬ QuotientOverflow op x y) :
    Means op x y (arith o (.num x) (.num y)) := by
  intro lookup a b fs fs' e ρ K hr ha hb h hK
  have hka := ha.isOperand
  have hkb := hb.isOperand
  rw [compileNext, build] at h
  obtain ⟨⟨e₁, fs₁⟩, hbuild, h⟩ := bind_eq_ok h
  obtain ⟨⟨e₂, fs₂⟩, hop1, hbuild⟩ := bind_eq_ok hbuild
  cases hop1
  obtain ⟨⟨e₃, fs₃⟩, hleft, hbuild⟩ := bind_eq_ok hbuild
  change bcemitBinopLeft op (.init (operandKind lookup a)) fs = .ok (e₃, fs₃) at hleft
  rw [hka.bcemitBinopLeft hop fs] at hleft
  cases hleft
  obtain ⟨⟨e₄, fs₄⟩, hop2, hbuild⟩ := bind_eq_ok hbuild
  cases hop2
  have harith : bcemitArith op (.init (discharged (operandKind lookup a)))
      (.init (operandKind lookup b)) fs = .ok (e₁, fs₁) := by
    cases op <;> first | exact hbuild | cases hop
  rw [bcemitArith] at harith
  obtain ⟨r, hfold, harith⟩ := bind_eq_ok harith
  cases r with
  | some n =>
    cases harith
    have hnum : arith (σ := BitVec 64) o (.num x) (.num y) = .ok (.num n) := by
      obtain ⟨r, hfold', hval⟩ := foldarith_spec hop hzero hover
      refine hval n ?_
      rcases ha with hk | ⟨_, _, hk, -⟩
      · rcases hb with hk' | ⟨_, _, hk', -⟩
        · rw [hk, hk'] at hfold
          exact Except.ok.inj (hfold'.symm.trans hfold)
        · rw [hk, hk'] at hfold
          cases hfold
      · rw [hk] at hfold
        cases hfold
    change exprTonextreg (.init (.vknum n)) fs = .ok (e, fs') at h
    obtain ⟨ins, rfl, hg, -, -, hreg, hkind, hval⟩ := exprTonextreg_num hr h
    have hends := hg.ends (fun i hi => by rwa [mem_singleton.mp hi]) K ρ fs.freereg
    rw [execAll, hval K hK, hreg] at hends
    rw [hnum]
    refine Eq.mp (congrArg _ ?_) hends
    change Res.ok (update ρ fs.freereg (Val.num n) fs.freereg) = _
    rw [update_self]
  | none =>
    rw [hop] at harith
    obtain ⟨⟨ins, e1', e2', fs₅⟩, hops, harith⟩ := bind_eq_ok harith
    obtain ⟨is, hg, ⟨k, rfl⟩, hkind, hrun⟩ :=
      arithOperands_spec hka.discharged hkb hr.nactvar_le hr hops
    obtain ⟨hg', rfl, -⟩ := relocable_grows harith
    have hfree := hg.exprFree (.init k) |>.exprFree e2'
    have hall := hfree.trans hg'
    rw [hfree.pc_eq] at h
    obtain ⟨reg, rfl, hlast, hgiven⟩ := exprTonextreg_relocable hall h
    have hK₁ : Agrees K (exprFree e2' (exprFree (.init k) fs₅)).consts :=
      hK.of_suffix (hg'.given.trans hgiven)
    have hK₅ : Agrees K fs₅.consts := by
      obtain ⟨n, hn⟩ := exprFree_eq (.init k) fs₅
      obtain ⟨n', hn'⟩ := exprFree_eq e2' (exprFree (.init k) fs₅)
      rw [hn', hn] at hK₁
      exact hK₁
    obtain ⟨ρ', hkinds, hexec, hcomp⟩ := hrun K hK₅
    have hends := hlast.ends (K := K) (ρ := ρ) (fun i hi => ?_) reg
    · rw [execAll_concat hexec] at hends
      rcases hcomp with hv | hv
      · rwa [hv] at hends
      · rwa [hv, arithChecked_eq hop hzero] at hends
    · rcases mem_append.mp hi with hi | hi
      · exact hkinds i hi
      · rw [mem_singleton.mp hi]
        exact hkind

end

/-! ## Where folding is transparent -/

def nameOf (r : BitVec 64) : Lexeme := ⟨.name, ⟨.str, r⟩, false, rfl⟩

/-- The literal `0`. -/
def zeroLit : Lexeme := ⟨.number, .number 0, false, rfl⟩

def twoLocals (v : TVal) : ExpKind := .vlocal v.word.toNat

def afterLocals : EmitState where
  code := []
  lasttarget := 0
  jpc := none
  freereg := 2
  nactvar := 2
  framesize := 2
  consts := ⟨⟨kpTabNew fun _ => (0, 0), 0, 0⟩, []⟩
  bclim := 2 ^ 26

theorem afterLocals_regular : afterLocals.Regular := ⟨by decide, by decide, by decide⟩

/-- What is left of a compilation that the run of the code depends on. -/
def emitted (r : Except EmitErr (ExpDesc × EmitState)) :
    Option (ExpDesc × List Ins × List (TVal × ℕ)) :=
  match r with
  | .ok (e, fs) => some (e, fs.code, fs.consts.given)
  | .error _ => none

theorem ok_of_emitted {r : Except EmitErr (ExpDesc × EmitState)} {e : ExpDesc} {code : List Ins}
    {given : List (TVal × ℕ)} (h : emitted r = some (e, code, given)) :
    ∃ fs, r = .ok (e, fs) ∧ fs.code = code ∧ fs.consts.given = given := by
  cases r with
  | ok p =>
    cases h
    exact ⟨_, rfl, rfl, rfl⟩
  | error err => cases h

def divOpr (mod : Bool) : BinOpr := if mod then .mod else .div

def divArith (mod : Bool) : ArithOpr := if mod then .mod else .div

theorem emitted_divide_locals (mod : Bool) :
    emitted (compileNext twoLocals (.binop (divOpr mod) (.operand (nameOf 0)) (.operand (nameOf 1)))
      afterLocals) = some (.init (.vnonreloc 2), [.abc (.vv (divArith mod)) 2 0 1], []) := by
  cases mod <;> decide +kernel

theorem emitted_divide_zero (mod : Bool) :
    emitted (compileNext twoLocals (.binop (divOpr mod) (.operand (nameOf 0)) (.operand zeroLit))
      afterLocals) =
        some (.init (.vnonreloc 2), [.abc (.vn (divArith mod)) 2 0 0], [(.number 0, 0)]) := by
  cases mod <;> decide +kernel

def twoRegs (x y : Number) : Regs (BitVec 64) := fun r => if r = 0 then .num x else .num y

theorem ends_single {fs : EmitState} {i : Ins} (hcode : fs.code = [i]) (hkind : i.op.kind = .value)
    (K : Consts (BitVec 64)) (ρ : Regs (BitVec 64)) (reg : ℕ) :
    Yields (insAt fs.code) K fs.pc reg ⟨afterLocals.pc, ρ⟩
      ((execAll K [i] ρ).bind fun ρ' => .ok (ρ' reg)) := by
  have hall : ∀ j ∈ [i], j.op.kind = .value := fun j hj => by rwa [mem_singleton.mp hj]
  have hends : Yields (insAt fs.code) K (0 + [i].length) reg ⟨0, ρ⟩
      ((execAll K [i] ρ).bind fun ρ' => .ok (ρ' reg)) :=
    Yields.of_execAll hall (fun n _ => by rw [Nat.zero_add, hcode]) ρ reg
  have hpc : fs.pc = 0 + [i].length := by rw [EmitState.pc, hcode, Nat.zero_add]
  rw [hpc]
  exact hends

theorem not_means_zero (mod : Bool) (x : Number) (r : Res (Val (BitVec 64))) :
    ¬ Means (divOpr mod) x 0 r := by
  intro hmeans
  obtain ⟨fs, hvv, hcode, hgiven⟩ := ok_of_emitted (emitted_divide_locals mod)
  obtain ⟨fs', hvn, hcode', hgiven'⟩ := ok_of_emitted (emitted_divide_zero mod)
  have hx : Stands twoLocals (twoRegs x 0) afterLocals.nactvar x (nameOf 0) :=
    .inr ⟨0, by decide, rfl, rfl⟩
  have hy : Stands twoLocals (twoRegs x 0) afterLocals.nactvar 0 (nameOf 1) :=
    .inr ⟨1, by decide, rfl, rfl⟩
  have hzero : Stands twoLocals (twoRegs x 0) afterLocals.nactvar 0 zeroLit := .inl rfl
  have hK : Agrees ⟨[0], []⟩ fs.consts := by
    constructor <;> intro _ _ hmem <;> rw [hgiven] at hmem <;> cases hmem
  have hK' : Agrees ⟨[0], []⟩ fs'.consts := by
    constructor <;> intro _ _ hmem <;> rw [hgiven'] at hmem <;> cases hmem
    case num.head => exact ⟨rfl, by decide⟩
    case num.tail h => cases h
    case str.tail h => cases h
  have hfault : r = .fault := by
    refine (hmeans _ _ _ _ _ _ _ _ afterLocals_regular hx hy hvv hK).unique ?_
    have hends := ends_single hcode rfl ⟨[0], []⟩ (twoRegs x 0) 2
    have hval : value ⟨[0], []⟩ (.abc (.vv (divArith mod)) 2 0 1) (twoRegs x 0) = .fault := by
      cases mod <;> rfl
    rwa [execAll, hval] at hends
  have herr : r = .err := by
    refine (hmeans _ _ _ _ _ _ _ _ afterLocals_regular hx hzero hvn hK').unique ?_
    have hends := ends_single hcode' rfl ⟨[0], []⟩ (twoRegs x 0) 2
    have hval : value ⟨[0], []⟩ (.abc (.vn (divArith mod)) 2 0 0) (twoRegs x 0) = .err := by
      cases mod <;> rfl
    rwa [execAll, hval] at hends
  rw [hfault] at herr
  cases herr

/-! ## The sign -/

theorem means_unm {fs fs' fs₁ : EmitState} {e e₁ : ExpDesc} {k : ExpKind}
    {ρ : Regs (BitVec 64)} {K : Consts (BitVec 64)} (hr : fs.Regular)
    (hk : IsOperand ρ fs.nactvar x k)
    (hun : (do
      let (e, fs) ← exprToanyreg (.init k) fs
      unopIns .unm e fs) = .ok (e₁, fs₁))
    (h : exprTonextreg e₁ fs₁ = .ok (e, fs')) (hK : Agrees K fs'.consts) :
    Yields (insAt fs'.code) K fs'.pc e.k.info ⟨fs.pc, ρ⟩ (.ok (.num (-x))) := by
  obtain ⟨⟨e₂, fs₂⟩, hany, hun⟩ := bind_eq_ok hun
  obtain ⟨is, r, rfl, hg, hr₂, -, hlt, hload⟩ := hk.exprToanyreg hr.nactvar_le hr hany
  have hfree := hg.exprFree (.init (.vnonreloc r))
  obtain ⟨hg', rfl, -⟩ := relocable_grows hun
  rw [hfree.pc_eq] at h
  obtain ⟨reg, rfl, hlast, hgiven⟩ := exprTonextreg_relocable (hfree.trans hg') h
  have hK₂ : Agrees K fs₂.consts := by
    have hK₁ := hK.of_suffix (hg'.given.trans hgiven)
    obtain ⟨n, hn⟩ := exprFree_eq (.init (.vnonreloc r)) fs₂
    rw [hn] at hK₁
    exact hK₁
  obtain ⟨hkinds, ρ', hexec, hx, -⟩ := hload K hK₂ ρ fun _ _ => rfl
  have hends := hlast.ends (K := K) (ρ := ρ) (fun i hi => ?_) reg
  · rw [execAll_concat hexec] at hends
    have hd : (Ins.ad .unm 0 r).d = r := by
      have hframe := hr₂.freereg_le
      have hframe' := hr₂.framesize_lt
      rw [kpMaxSlots] at hframe'
      exact Nat.mod_eq_of_lt (by omega)
    have hval : value K (.ad .unm 0 r) ρ' = .ok (.num (-x)) := by
      simp only [value, hd, hx, show (Ins.ad .unm 0 r).op = .unm from rfl]
    rwa [show (ExpDesc.init (.vnonreloc r)).k.info = r from rfl, hval] at hends
  · rcases mem_append.mp hi with hi | hi
    · exact hkinds i hi
    · rw [mem_singleton.mp hi]
      rfl

theorem minusRight (x : Number) : MinusRight x := by
  intro lookup a fs fs' e ρ K hr ha h hK
  rw [compileNext, build] at h
  obtain ⟨⟨e₁, fs₁⟩, hbuild, h⟩ := bind_eq_ok h
  obtain ⟨⟨e₂, fs₂⟩, hop, hbuild⟩ := bind_eq_ok hbuild
  cases hop
  change bcemitUnop .unm (.init (operandKind lookup a)) fs = .ok (e₁, fs₁) at hbuild
  have hk := ha.isOperand
  rw [bcemitUnop] at hbuild
  dsimp only at hbuild
  rcases ha with hlit | ⟨r, hlt, hloc, hx⟩
  · rw [hlit] at hbuild hk
    change (if x = 0 then _ else Except.ok (_, _)) = _ at hbuild
    split at hbuild
    · exact means_unm hr hk hbuild h hK
    · cases hbuild
      obtain ⟨ins, rfl, hg, -, -, hreg, hkind, hval⟩ := exprTonextreg_num hr h
      have hends := hg.ends (fun i hi => by rwa [mem_singleton.mp hi]) K ρ fs.freereg
      rw [execAll, hval K hK, hreg] at hends
      refine Eq.mp (congrArg _ ?_) hends
      change Res.ok (update ρ fs.freereg (Val.num (-x)) fs.freereg) = _
      rw [update_self]
  · rw [hloc] at hbuild hk
    exact means_unm hr hk hbuild h hK

/-- Folding is transparent for signs and, but for `^`, for the operands that the processor can
divide. -/
theorem folding_transparent_iff (op : BinOpr) (x y : Number) : MinusRight x ∧
    (op.isArith = true → ((FoldsRight op x y ∧ ∃ r, Means op x y r) ↔
      op ≠ .pow ∧ ¬ ZeroDivisor op y ∧ ¬ QuotientOverflow op x y)) := by
  refine ⟨minusRight x, fun harith => ⟨?_, ?_⟩⟩
  · rintro ⟨⟨n, hfold, hval⟩, r, hmeans⟩
    refine ⟨?_, ?_, ?_⟩
    · rintro rfl
      cases hfold
      cases hval x rfl
    · rintro ⟨rfl | rfl, rfl⟩
      · exact not_means_zero false x r hmeans
      · exact not_means_zero true x r hmeans
    · rintro ⟨rfl, rfl, rfl⟩
      cases hfold
  · rintro ⟨hpow, hzero, hover⟩
    obtain ⟨o, ho⟩ : ∃ o, op.arith = some o := by
      cases op <;> first | exact ⟨_, rfl⟩ | exact absurd rfl hpow | cases harith
    refine ⟨?_, _, means_arith ho hzero hover⟩
    obtain ⟨r, hfold, hval⟩ := foldarith_spec ho hzero hover
    refine ⟨r, hfold, fun n hn => ?_⟩
    rw [insValue, ho]
    exact hval n hn

/-- `7 / 2` is folded as the instruction divides. -/
theorem folding_transparent_seven_by_two : (FoldsRight .div 7 2 ∧ ∃ r, Means .div 7 2 r) ↔
    BinOpr.div ≠ .pow ∧ ¬ ZeroDivisor .div 2 ∧ ¬ QuotientOverflow .div 7 2 :=
  (folding_transparent_iff .div 7 2).2 rfl

/-- `2 ^ 3` is folded to 2, and the instruction is rejected. -/
theorem power_folds_to_base :
    foldarith .pow (.init (.vknum 2)) (.init (.vknum 3)) = .ok (some 2) ∧
      insValue .pow 2 3 = .stuck ∧ ¬ FoldsRight .pow 2 3 := by
  refine ⟨rfl, rfl, ?_⟩
  rintro ⟨n, hfold, hval⟩
  cases hfold
  cases hval 2 rfl

end transparent

end Ktap.User
