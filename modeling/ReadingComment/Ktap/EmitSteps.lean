import ReadingComment.Ktap.EmitOps

/-!
# Code without jumps (`userspace/kp_parse.c`)

Emitting an instruction appends it to the code; what is changed before it are the jumps
that were to go to it. Operands without jumps become instructions that store one value
each (`Loads`), and what these compute does not depend on the dispatch loop.
-/

namespace Ktap.User

open Lib List

/-! ## Code grows -/

/-- The instructions `is` are appended to the code; what else is changed are jumps before them. -/
structure Grows (fs fs' : EmitState) (is : List Ins) : Prop where
  code : ∃ old : List Ins, old.length = fs.code.length ∧ fs'.code = old ++ is ∧
    (fs.jpc = none → old = fs.code)
  jpc : fs'.jpc = none ∨ is = [] ∧ fs'.jpc = fs.jpc
  nactvar : fs'.nactvar = fs.nactvar
  given : fs.consts.given <:+ fs'.consts.given

/-- The registers are in order. -/
structure EmitState.Regular (fs : EmitState) : Prop where
  nactvar_le : fs.nactvar ≤ fs.freereg
  freereg_le : fs.freereg ≤ fs.framesize
  framesize_lt : fs.framesize < kpMaxSlots

section grows

variable {fs fs' fs₁ : EmitState} {is js : List Ins}

theorem Grows.refl (fs : EmitState) : Grows fs fs [] where
  code := ⟨fs.code, rfl, (append_nil _).symm, fun _ => rfl⟩
  jpc := .inr ⟨rfl, rfl⟩
  nactvar := rfl
  given := suffix_refl _

theorem Grows.trans (h : Grows fs fs₁ is) (h' : Grows fs₁ fs' js) : Grows fs fs' (is ++ js) := by
  obtain ⟨old, hlen, hcode, hold⟩ := h.code
  obtain ⟨old', hlen', hcode', hold'⟩ := h'.code
  refine ⟨?_, ?_, h'.nactvar.trans h.nactvar, h.given.trans h'.given⟩
  · rcases h.jpc with hjpc | ⟨rfl, hjpc⟩
    · refine ⟨old, hlen, ?_, hold⟩
      rw [hcode', hold' hjpc, hcode, append_assoc]
    · refine ⟨old', ?_, by rw [hcode', nil_append], fun hnone => ?_⟩
      · rw [hlen', hcode, append_nil, hlen]
      · rw [hold' (hjpc.trans hnone), hcode, append_nil, hold hnone]
  · rcases h'.jpc with hjpc | ⟨rfl, hjpc⟩
    · exact .inl hjpc
    · rcases h.jpc with hnone | ⟨rfl, hsame⟩
      · exact .inl (hjpc.trans hnone)
      · exact .inr ⟨rfl, hjpc.trans hsame⟩

theorem Grows.freereg (h : Grows fs fs' is) (n : ℕ) : Grows fs { fs' with freereg := n } is :=
  ⟨h.code, h.jpc, h.nactvar, h.given⟩

theorem exprFree_eq (e : ExpDesc) (fs : EmitState) :
    ∃ n, exprFree e fs = { fs with freereg := n } := by
  rw [exprFree]
  split
  · rw [bcregFree]
    split <;> exact ⟨_, rfl⟩
  · exact ⟨_, rfl⟩

theorem Grows.exprFree (h : Grows fs fs' is) (e : ExpDesc) : Grows fs (exprFree e fs') is := by
  obtain ⟨n, hn⟩ := exprFree_eq e fs'
  rw [hn]
  exact h.freereg n

theorem Grows.pc_eq (h : Grows fs fs' is) : fs'.pc = fs.pc + is.length := by
  obtain ⟨old, hlen, hcode, -⟩ := h.code
  rw [EmitState.pc, hcode, length_append, hlen, EmitState.pc]

theorem Grows.insAt_eq (h : Grows fs fs' is) (n : ℕ) :
    insAt fs'.code (fs.pc + n) = insAt is n := by
  obtain ⟨old, hlen, hcode, -⟩ := h.code
  rw [insAt, hcode, EmitState.pc, ← hlen, getElem?_append_right (Nat.le_add_right ..),
    Nat.add_sub_cancel_left, insAt]

theorem Grows.setLast {i j : Ins} (h : Grows fs fs' (is ++ [i])) :
    Grows fs { fs' with code := fs'.code.set (fs.pc + is.length) j } (is ++ [j]) := by
  obtain ⟨old, hlen, hcode, hold⟩ := h.code
  have hjpc := h.jpc.resolve_right fun hnil => append_ne_nil_of_right_ne_nil _
    (cons_ne_nil i []) hnil.1
  refine ⟨⟨old, hlen, ?_, hold⟩, .inl hjpc, h.nactvar, h.given⟩
  change fs'.code.set _ j = _
  rw [hcode, EmitState.pc, ← hlen, set_append_right _ _ (Nat.le_add_right ..),
    Nat.add_sub_cancel_left, set_append_right _ _ (Nat.le_refl _), Nat.sub_self]
  rfl

end grows

/-! ## One instruction -/

section instructions

variable {fs fs' : EmitState} {code code' : List Ins}

theorem length_jmpPatchtestreg (code : List Ins) (pc reg : ℕ) :
    (jmpPatchtestreg code pc reg).1.length = code.length := by
  rw [jmpPatchtestreg]
  dsimp only
  split
  · split <;> exact length_set
  · split
    · split
      · exact length_set
      · split
        · rw [length_set, length_set]
        · exact length_set
    · rfl

theorem length_jmpPatchins {pc dest : ℕ} (h : jmpPatchins code pc dest = .ok code') :
    code'.length = code.length := by
  rw [jmpPatchins] at h
  split at h <;> cases h
  exact length_set

theorem length_jmpPatchval {vtarget reg : ℕ} {dtarget : Option ℕ} {n : ℕ} {list : Option ℕ}
    (h : jmpPatchval vtarget reg dtarget n code list = .ok code') : code'.length = code.length := by
  induction n generalizing code list with
  | zero =>
    cases list with
    | none =>
      cases h
      rfl
    | some p => cases h
  | succ n ih =>
    cases list with
    | none =>
      cases h
      rfl
    | some p =>
      have hpatch := length_jmpPatchtestreg code p reg
      rw [jmpPatchval] at h
      dsimp only at h
      split at h <;>
      · obtain ⟨code₁, h₁, h⟩ := bind_eq_ok h
        exact (ih h).trans ((length_jmpPatchins h₁).trans hpatch)

theorem jmpPatchval_none (vtarget reg : ℕ) (dtarget : Option ℕ) (n : ℕ) (code : List Ins) :
    jmpPatchval vtarget reg dtarget n code none = .ok code := by
  cases n <;> rfl

theorem bcemitIns_grows {ins : Ins} {pc : ℕ} (h : bcemitIns ins fs = .ok (pc, fs')) :
    Grows fs fs' [ins] ∧ pc = fs.pc ∧ fs'.freereg = fs.freereg ∧ fs'.framesize = fs.framesize := by
  rw [bcemitIns] at h
  obtain ⟨code, hcode, h⟩ := bind_eq_ok h
  split at h
  · cases h
  · cases h
    refine ⟨⟨⟨code, length_jmpPatchval hcode, rfl, fun hnone => ?_⟩, .inl rfl, rfl,
      suffix_refl _⟩, rfl, rfl, rfl⟩
    rw [hnone, jmpPatchval_none] at hcode
    exact (Except.ok.inj hcode).symm

theorem relocable_grows {e e' : ExpDesc} {ins : Ins} (h : relocable e ins fs = .ok (e', fs')) :
    Grows fs fs' [ins] ∧ e' = { e with k := .vrelocable fs.pc } ∧ fs'.freereg = fs.freereg ∧
      fs'.framesize = fs.framesize := by
  rw [relocable] at h
  obtain ⟨⟨pc, fs₁⟩, hins, h⟩ := bind_eq_ok h
  cases h
  obtain ⟨hg, rfl, hfree⟩ := bcemitIns_grows hins
  exact ⟨hg, rfl, hfree⟩

theorem constNum_grows {n : Number} {c : ℕ} (h : fs.constNum n = .ok (c, fs')) :
    Grows fs fs' [] ∧ (.number n, c) ∈ fs'.consts.given ∧ fs'.freereg = fs.freereg ∧
      fs'.framesize = fs.framesize := by
  rw [EmitState.constNum] at h
  split at h <;> cases h
  exact ⟨⟨⟨fs.code, rfl, (append_nil _).symm, fun _ => rfl⟩, .inr ⟨rfl, rfl⟩, rfl,
    suffix_cons _ _⟩, mem_cons_self, rfl, rfl⟩

theorem bcregReserve_grows {n : ℕ} (h : bcregReserve n fs = .ok fs') :
    Grows fs fs' [] ∧ fs'.freereg = fs.freereg + n := by
  rw [bcregReserve] at h
  obtain ⟨fs₁, hbump, h⟩ := bind_eq_ok h
  cases h
  rw [bcregBump] at hbump
  split at hbump
  · split at hbump <;> cases hbump
    exact ⟨⟨⟨fs.code, rfl, (append_nil _).symm, fun _ => rfl⟩, .inr ⟨rfl, rfl⟩, rfl,
      suffix_refl _⟩, rfl⟩
  · cases hbump
    exact ⟨(Grows.refl fs).freereg _, rfl⟩

theorem EmitState.Regular.reserve {n : ℕ} (hr : fs.Regular) (h : bcregReserve n fs = .ok fs') :
    fs'.Regular := by
  have hle := hr.nactvar_le
  rw [bcregReserve] at h
  obtain ⟨fs₁, hbump, h⟩ := bind_eq_ok h
  cases h
  rw [bcregBump] at hbump
  split at hbump
  · split at hbump <;> cases hbump
    exact ⟨Nat.le_add_right_of_le hle, Nat.le_refl _, by dsimp only; omega⟩
  · cases hbump
    exact ⟨Nat.le_add_right_of_le hle, by dsimp only; omega, hr.framesize_lt⟩

theorem EmitState.Regular.congr (hr : fs.Regular) (hn : fs'.nactvar = fs.nactvar)
    (hf : fs'.freereg = fs.freereg) (hs : fs'.framesize = fs.framesize) : fs'.Regular :=
  ⟨by rw [hn, hf]; exact hr.nactvar_le, by rw [hf, hs]; exact hr.freereg_le,
    by rw [hs]; exact hr.framesize_lt⟩

end instructions

/-! ## Instructions that store one value -/

/-- The constants of a prototype are the ones that indices were given to; an index fits the field
`D`. -/
structure Agrees (K : Consts (BitVec 64)) (p : Parse) : Prop where
  num : ∀ n c, (TVal.number n, c) ∈ p.given → K.kn[c]? = some n ∧ c ≤ bcmaxD
  str : ∀ s c, (TVal.string s, c) ∈ p.given → K.kgc[c]? = some s ∧ c ≤ bcmaxD

theorem Agrees.of_suffix {K : Consts (BitVec 64)} {p p' : Parse} (h : Agrees K p')
    (hs : p.given <:+ p'.given) : Agrees K p :=
  ⟨fun n c hm => h.num n c (hs.subset hm), fun s c hm => h.str s c (hs.subset hm)⟩

/-- What instructions that store one value leave in the registers. -/
def execAll {σ : Type} [DecidableEq σ] (K : Consts σ) : List Ins → Regs σ → Res (Regs σ)
  | [], ρ => .ok ρ
  | i :: is, ρ => (value K i ρ).bind fun v => execAll K is (Function.update ρ i.a v)

section exec

variable {σ : Type} [DecidableEq σ] {K : Consts σ}

theorem Res.bind_assoc {α β γ : Type} (r : Res α) (f : α → Res β) (g : β → Res γ) :
    (r.bind f).bind g = r.bind fun x => (f x).bind g := by
  cases r <;> rfl

theorem execAll_append (is js : List Ins) (ρ : Regs σ) :
    execAll K (is ++ js) ρ = (execAll K is ρ).bind (execAll K js) := by
  induction is generalizing ρ with
  | nil => rfl
  | cons i is ih =>
    rw [cons_append, execAll, execAll, Res.bind_assoc]
    exact congrArg _ (funext fun v => ih _)

/-- How code ends: at its end with the value of a register, or before it. -/
inductive Yields (C : ℕ → Ins) (K : Consts σ) (stop reg : ℕ) : State σ → Res (Val σ) → Prop where
  | done {s : State σ} : s.pc = stop → Yields C K stop reg s (.ok (s.regs reg))
  | next {s s' : State σ} {r : Res (Val σ)} : s.pc ≠ stop → step C K s = .ok s' →
    Yields C K stop reg s' r → Yields C K stop reg s r
  | halts {s : State σ} : s.pc ≠ stop → (∀ s', step C K s ≠ .ok s') →
    Yields C K stop reg s ((step C K s).bind fun s' => .ok (s'.regs reg))

theorem Yields.unique {C : ℕ → Ins} {stop reg : ℕ} {s : State σ} {r r' : Res (Val σ)}
    (h : Yields C K stop reg s r) (h' : Yields C K stop reg s r') : r = r' := by
  induction h with
  | done hpc =>
    cases h' with
    | done => rfl
    | next hne => exact absurd hpc hne
    | halts hne => exact absurd hpc hne
  | next hne hs _ ih =>
    cases h' with
    | done hpc => exact absurd hpc hne
    | next _ hs' hrest =>
      obtain rfl := Res.ok.inj (hs.symm.trans hs')
      exact ih hrest
    | halts _ hnone => exact absurd hs (hnone _)
  | halts hne hnone =>
    cases h' with
    | done hpc => exact absurd hpc hne
    | next _ hs => exact absurd hs (hnone _)
    | halts => rfl

theorem Yields.of_execAll {C : ℕ → Ins} {is : List Ins} (hkind : ∀ i ∈ is, i.op.kind = .value)
    {pc : ℕ} (hC : ∀ n, n < is.length → C (pc + n) = insAt is n) (ρ : Regs σ) (reg : ℕ) :
    Yields C K (pc + is.length) reg ⟨pc, ρ⟩ ((execAll K is ρ).bind fun ρ' => .ok (ρ' reg)) := by
  induction is generalizing pc ρ with
  | nil => exact .done rfl
  | cons i is ih =>
    have hi : C pc = i := hC 0 (Nat.succ_pos _)
    have hk : i.op.kind = .value := hkind i mem_cons_self
    have hstep : step C K ⟨pc, ρ⟩ =
        (value K i ρ).bind fun v => .ok ⟨pc + 1, Function.update ρ i.a v⟩ := by
      simp only [step, hi, hk]
    have hne : pc ≠ pc + (i :: is).length := by
      rw [length_cons]
      omega
    have hrest : ∀ ρ', Yields C K (pc + (i :: is).length) reg ⟨pc + 1, ρ'⟩
        ((execAll K is ρ').bind fun ρ'' => .ok (ρ'' reg)) := by
      intro ρ'
      have hC' : ∀ n, n < is.length → C (pc + 1 + n) = insAt is n := by
        intro n hn
        rw [Nat.add_assoc, Nat.add_comm 1 n]
        exact hC (n + 1) (Nat.succ_lt_succ hn)
      have h := ih (fun j hj => hkind j (mem_cons_of_mem _ hj)) hC' ρ'
      rwa [Nat.add_assoc, Nat.add_comm 1] at h
    rw [execAll, Res.bind_assoc]
    cases hv : value K i ρ with
    | ok v =>
      rw [hv] at hstep
      exact .next hne hstep (hrest _)
    | err | fault | stuck =>
      rw [hv] at hstep
      have hend : Yields C K (pc + (i :: is).length) reg ⟨pc, ρ⟩ _ :=
        .halts hne (by rw [hstep]; exact nofun)
      rwa [hstep] at hend

end exec

/-! ## Operands -/

/-- A description that holds a number: a constant, or one of the first `n` registers. -/
inductive IsOperand (ρ : Regs (BitVec 64)) (n : ℕ) (x : Number) : ExpKind → Prop where
  | num : IsOperand ρ n x (.vknum x)
  | local {r : ℕ} : r < n → ρ r = .num x → IsOperand ρ n x (.vlocal r)
  | nonreloc {r : ℕ} : r < n → ρ r = .num x → IsOperand ρ n x (.vnonreloc r)

/-- Instructions that bring a number into the register `r` and keep the registers below `n`. -/
structure Loads (K : Consts (BitVec 64)) (ρ : Regs (BitVec 64)) (n : ℕ) (x : Number)
    (is : List Ins) (r : ℕ) : Prop where
  kind : ∀ i ∈ is, i.op.kind = .value
  exec : ∃ ρ', execAll K is ρ = .ok ρ' ∧ ρ' r = .num x ∧ ∀ q < n, ρ' q = ρ q

section operands

variable {fs fs' : EmitState} {e e' : ExpDesc} {K : Consts (BitVec 64)} {ρ : Regs (BitVec 64)}
  {x : Number} {k : ExpKind} {n : ℕ}

theorem Loads.nil {r : ℕ} (h : ρ r = .num x) : Loads K ρ n x [] r :=
  ⟨nofun, ρ, rfl, h, fun _ _ => rfl⟩

theorem ofNat_toNat_of_sle {n : Number} (h : (0 : Number).sle n = true ∧ n.sle 0xffff = true) :
    BitVec.ofNat 64 (n.toNat % 2 ^ 16) = n := by
  obtain ⟨h0, h1⟩ := h
  rw [BitVec.sle_iff_toInt_le] at h0 h1
  have hzero : (0 : Number).toInt = 0 := rfl
  have hmax : (0xffff : Number).toInt = 0xffff := rfl
  rw [hzero] at h0
  rw [hmax] at h1
  have hlt : n.toNat < 2 ^ 16 := by
    rw [BitVec.toInt_eq_toNat_cond] at h0 h1
    split at h1 <;> omega
  rw [Nat.mod_eq_of_lt hlt, BitVec.ofNat_toNat, BitVec.setWidth_eq]

theorem loadNum_grows {reg : ℕ} {ins : Ins} (h : loadNum x reg fs = .ok (ins, fs')) :
    Grows fs fs' [] ∧ fs'.freereg = fs.freereg ∧ fs'.framesize = fs.framesize ∧ ins.a = reg ∧
      ins.op.kind = .value ∧ ∀ K, Agrees K fs'.consts → ∀ ρ, value K ins ρ = .ok (.num x) := by
  rw [loadNum] at h
  split at h
  · rename_i hshort
    cases h
    refine ⟨.refl fs, rfl, rfl, rfl, rfl, fun K _ ρ => ?_⟩
    rw [value, Ins.ad, ofNat_toNat_of_sle hshort]
  · obtain ⟨⟨c, fs₁⟩, hc, h⟩ := bind_eq_ok h
    cases h
    obtain ⟨hg, hmem, hfree⟩ := constNum_grows hc
    refine ⟨hg, hfree.1, hfree.2, rfl, rfl, fun K hK ρ => ?_⟩
    obtain ⟨hkn, hle⟩ := hK.num x c hmem
    have hd : (Ins.ad .knum reg c).d = c := Nat.mod_eq_of_lt (by rw [bcmaxD] at hle; omega)
    rw [value]
    change K.num (Ins.ad .knum reg c).d = _
    rw [hd, Consts.num, hkn]

theorem init_hasjump (k : ExpKind) : (ExpDesc.init k).hasjump = false := rfl

theorem exprTonextreg_num (hr : fs.Regular)
    (h : exprTonextreg (.init (.vknum x)) fs = .ok (e', fs')) :
    ∃ ins, e' = .init (.vnonreloc fs.freereg) ∧ Grows fs fs' [ins] ∧ fs'.Regular ∧
      fs'.freereg = fs.freereg + 1 ∧ ins.a = fs.freereg ∧ ins.op.kind = .value ∧
      ∀ K, Agrees K fs'.consts → ∀ ρ, value K ins ρ = .ok (.num x) := by
  rw [exprTonextreg] at h
  obtain ⟨⟨e₁, fs₁⟩, hdis, h⟩ := bind_eq_ok h
  cases hdis
  obtain ⟨fs₂, hres, h⟩ := bind_eq_ok h
  change bcregReserve 1 fs = .ok fs₂ at hres
  obtain ⟨hg₂, hfree₂⟩ := bcregReserve_grows hres
  have hr₂ := hr.reserve hres
  rw [exprToreg] at h
  obtain ⟨⟨e₃, fs₃⟩, hreg, h⟩ := bind_eq_ok h
  rw [exprToregNobranch] at hreg
  obtain ⟨⟨e₄, fs₄⟩, hdis, hreg⟩ := bind_eq_ok hreg
  cases hdis
  dsimp only [ExpDesc.init] at hreg
  obtain ⟨⟨ins, fs₅⟩, hload, hreg⟩ := bind_eq_ok hreg
  obtain ⟨⟨pc, fs₆⟩, hins, hreg⟩ := bind_eq_ok hreg
  cases hreg
  cases h
  obtain ⟨hg₅, hfree₅, hframe₅, ha, hkind, hval⟩ := loadNum_grows hload
  obtain ⟨hg₆, -, hfree₆, hframe₆⟩ := bcemitIns_grows hins
  have hreg : fs₂.freereg - 1 = fs.freereg := by omega
  rw [hreg] at ha ⊢
  refine ⟨ins, rfl, (hg₂.trans hg₅).trans hg₆, ?_, ?_, ha, hkind, fun K hK => ?_⟩
  · exact hr₂.congr (hg₆.nactvar.trans hg₅.nactvar) (hfree₆.trans hfree₅) (hframe₆.trans hframe₅)
  · rw [hfree₆, hfree₅, hfree₂]
  · exact hval K (hK.of_suffix hg₆.given)

end operands

end Ktap.User
