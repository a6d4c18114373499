import ReadingComment.Ktap.ExprTree
import ReadingComment.Ktap.Vm

/-!
# The code of expressions (`userspace/kp_parse.c`)

What the parser has of an expression is an `ExpDesc`: a constant, a variable, an instruction whose
register `A` is not chosen yet, a register, or a comparison with its jump. The jumps of `&&`, `||`
and `!` without a target form two lists, linked through the field `D`; when a list is patched, the
test in front of a jump is told whether its value is wanted.

A `BCPos` that may be `NO_JMP` is an option. The loops over a jump list have as much fuel as there
are instructions.
-/

namespace Ktap

/-! ## Operations outside the code of constants, locals and operators -/

namespace BCOp

/-- `BC_POW`. -/
def pow : BCOp := .other 36

/-- `BC_CAT`. -/
def cat : BCOp := .other 37

/-- `BC_UGET`. -/
def uget : BCOp := .other 44

/-- `BC_GGET`. -/
def gget : BCOp := .other 55

/-- `BC_TGETV`. -/
def tgetv : BCOp := .other 58

/-- `BC_TGETS`. -/
def tgets : BCOp := .other 59

/-- `BC_TGETB`. -/
def tgetb : BCOp := .other 60

/-- `BC_VARGN`. -/
def vargn : BCOp := .other 102

/-- `op ^ 1` for the operations of a test. -/
def invert : BCOp → BCOp
  | .islt => .isge
  | .isge => .islt
  | .isle => .isgt
  | .isgt => .isle
  | .iseqv => .isnev
  | .isnev => .iseqv
  | .iseqs => .isnes
  | .isnes => .iseqs
  | .iseqn => .isnen
  | .isnen => .iseqn
  | .iseqp => .isnep
  | .isnep => .iseqp
  | .istc => .isfc
  | .isfc => .istc
  | .ist => .isf
  | .isf => .ist
  | op => op

end BCOp

/-- `BCINS_AJ(o, a, NO_JMP)`: the link of the last element of a list. -/
def noJump : ℕ := 0x7fff

namespace User

/-! ## Descriptions -/

/-- The builtins of an event. -/
inductive Builtin where
  /-- `arg0` to `arg9` -/
  | argn (i : Fin 10)
  | argstr
  /-- `probename` -/
  | argname
  | pid
  | tid
  | uid
  | cpu
  | execname
  deriving DecidableEq, Repr

/-- `k - VARGN + BC_VARGN`, the operation that loads a builtin. -/
def Builtin.op : Builtin → BCOp
  | argn _ => .vargn
  | argstr => .other 103
  | argname => .other 104
  | pid => .other 105
  | tid => .other 106
  | uid => .other 107
  | cpu => .other 108
  | execname => .other 109

/-- `u.s.info` of a builtin: the number of the argument. -/
def Builtin.info : Builtin → ℕ
  | argn i => i
  | _ => 0

/-- `u.s.aux` of `VINDEXED`. -/
inductive IndexKey where
  /-- `~rc`: a string constant -/
  | str (c : ℕ)
  /-- `rc - (BCMAX_C + 1)` -/
  | byte (n : ℕ)
  | reg (r : ℕ)
  deriving DecidableEq, Repr

/-- An `ExpKind` with the part of the union that it uses. -/
inductive ExpKind where
  | vknil
  | vkfalse
  | vktrue
  | vkstr (sval : BitVec 64)
  | vknum (nval : Number)
  | vlocal (info : ℕ)
  | vupval (info : ℕ)
  | vglobal (sval : BitVec 64)
  | vindexed (info : ℕ) (aux : IndexKey)
  | vjmp (info : ℕ)
  | vrelocable (info : ℕ)
  | vnonreloc (info : ℕ)
  | vcall (info aux : ℕ)
  | vvoid
  | builtin (b : Builtin)
  deriving DecidableEq, Repr

/-- `u.s.info`. -/
def ExpKind.info : ExpKind → ℕ
  | vlocal r | vupval r | vindexed r _ | vjmp r | vrelocable r | vnonreloc r | vcall r _ => r
  | builtin b => b.info
  | _ => 0

/-- An `ExpDesc`. -/
structure ExpDesc where
  k : ExpKind
  t : Option ℕ
  f : Option ℕ
  deriving DecidableEq, Repr

/-- `expr_init(e, k, info)`. -/
def ExpDesc.init (k : ExpKind) : ExpDesc := ⟨k, none, none⟩

namespace ExpDesc

variable (e : ExpDesc)

/-- `expr_hasjump(e)`. -/
def hasjump : Bool := e.t != e.f

/-- `expr_isk(e)`. -/
def isk : Bool :=
  match e.k with
  | .vknil | .vkfalse | .vktrue | .vkstr _ | .vknum _ => true
  | _ => false

/-- `expr_isk_nojump(e)`. -/
def iskNojump : Bool := e.isk && ! e.hasjump

/-- `expr_isnumk(e)`, with the number. -/
def numk : Option Number :=
  match e.k with
  | .vknum n => some n
  | _ => none

/-- `expr_isnumk_nojump(e)`, with the number. -/
def numkNojump : Option Number := if e.hasjump then none else e.numk

end ExpDesc

/-- How the compilation ends with an error. -/
inductive EmitErr where
  /-- `KP_ERR_XJUMP` -/
  | xjump
  /-- `KP_ERR_XSLOTS` -/
  | xslots
  /-- "bytecode instructions" -/
  | limit
  /-- a division on the processor of the compiler faults -/
  | divide
  /-- the table of constants goes wrong -/
  | consts (e : Fault)
  /-- a loop over a jump list goes round -/
  | endless
  deriving DecidableEq, Repr

/-- The fields of a `FuncState` that the emitting functions use. -/
structure EmitState where
  /-- `bcbase`, up to `pc` -/
  code : List Ins
  lasttarget : ℕ
  jpc : Option ℕ
  freereg : ℕ
  nactvar : ℕ
  framesize : ℕ
  consts : Parse
  /-- how far the stack of instructions can grow -/
  bclim : ℕ

/-- `fs->pc`. -/
def EmitState.pc (fs : EmitState) : ℕ := fs.code.length

/-- `fs->bcbase[pc].ins`. -/
def insAt (code : List Ins) (pc : ℕ) : Ins := code[pc]?.getD ⟨.jmp, 0, 0⟩

/-- `const_num(fs, e)`. -/
def EmitState.constNum (fs : EmitState) (n : Number) : Except EmitErr (ℕ × EmitState) :=
  match User.constNum fs.consts.fs n with
  | .ok (c, i) => .ok (i, { fs with consts := ⟨c, (.number n, i) :: fs.consts.given⟩ })
  | .error e => .error (.consts e)

/-- `const_str(fs, e)`. -/
def EmitState.constStr (fs : EmitState) (s : BitVec 64) : Except EmitErr (ℕ × EmitState) :=
  match constGc fs.consts.fs s .str with
  | .ok (c, i) => .ok (i, { fs with consts := ⟨c, (.string s, i) :: fs.consts.given⟩ })
  | .error e => .error (.consts e)

/-! ## Jump lists -/

/-- `jmp_next(fs, pc)`. -/
def jmpNext (code : List Ins) (pc : ℕ) : Option ℕ :=
  let d := (insAt code pc).d
  if d = noJump then none else some (pc + 1 + d - bcbiasJ)

def testPc (pc : ℕ) : ℕ := if 1 ≤ pc then pc - 1 else pc

/-- `jmp_novalue(fs, list)`. -/
def jmpNovalue (code : List Ins) : ℕ → Option ℕ → Except EmitErr Bool
  | _, none => .ok false
  | 0, some _ => .error .endless
  | n + 1, some list =>
    let p := insAt code (testPc list)
    if p.op = .istc ∨ p.op = .isfc ∨ p.a = noReg then jmpNovalue code n (jmpNext code list)
    else .ok true

/-- `jmp_patchtestreg(fs, pc, reg)`. -/
def jmpPatchtestreg (code : List Ins) (pc reg : ℕ) : List Ins × Bool :=
  let at_ := testPc pc
  let i := insAt code at_
  if i.op = .istc ∨ i.op = .isfc then
    if reg ≠ noReg ∧ reg ≠ i.d then (code.set at_ { i with a := reg }, true)
    else (code.set at_ { i with op := if i.op = .istc then .ist else .isf, a := 0 }, true)
  else if i.a = noReg then
    if reg = noReg then (code.set at_ ⟨.jmp, (insAt code pc).a, bcbiasJ⟩, true)
    else
      let code := code.set at_ { i with a := reg }
      let jmp := insAt code (at_ + 1)
      if jmp.a ≤ reg then (code.set (at_ + 1) { jmp with a := reg + 1 }, true) else (code, true)
  else (code, false)

/-- `jmp_dropval(fs, list)`. -/
def jmpDropval : ℕ → List Ins → Option ℕ → Except EmitErr (List Ins)
  | _, code, none => .ok code
  | 0, _, some _ => .error .endless
  | n + 1, code, some list =>
    let code := (jmpPatchtestreg code list noReg).1
    jmpDropval n code (jmpNext code list)

/-- `jmp_patchins(fs, pc, dest)`. -/
def jmpPatchins (code : List Ins) (pc dest : ℕ) : Except EmitErr (List Ins) :=
  let offset := jumpOffset pc dest
  if bcmaxD < offset then .error .xjump
  else .ok (code.set pc { insAt code pc with d := offset })

/-- The loop of `jmp_append`: the last element of a list. -/
def jmpLast (code : List Ins) : ℕ → ℕ → Except EmitErr ℕ
  | 0, _ => .error .endless
  | n + 1, list =>
    match jmpNext code list with
    | some next => jmpLast code n next
    | none => .ok list

/-- `jmp_append(fs, l1, l2)`, with the list that `*l1` is afterwards. -/
def jmpAppend (code : List Ins) (l1 l2 : Option ℕ) : Except EmitErr (Option ℕ × List Ins) :=
  match l2, l1 with
  | none, _ => .ok (l1, code)
  | some _, none => .ok (l2, code)
  | some p, some list => do
    let last ← jmpLast code code.length list
    let code ← jmpPatchins code last p
    return (l1, code)

/-- `jmp_patchval(fs, list, vtarget, reg, dtarget)`. -/
def jmpPatchval (vtarget reg : ℕ) (dtarget : Option ℕ) :
    ℕ → List Ins → Option ℕ → Except EmitErr (List Ins)
  | _, code, none => .ok code
  | 0, _, some _ => .error .endless
  | n + 1, code, some list =>
    let next := jmpNext code list
    let (code, patched) := jmpPatchtestreg code list reg
    if patched then do
      let code ← jmpPatchins code list vtarget
      jmpPatchval vtarget reg dtarget n code next
    else do
      -- `NO_JMP` is not expected here
      let code ← jmpPatchins code list (dtarget.getD (2 ^ 32 - 1))
      jmpPatchval vtarget reg dtarget n code next

/-- `jmp_tohere(fs, list)`. -/
def jmpTohere (list : Option ℕ) (fs : EmitState) : Except EmitErr EmitState := do
  let (jpc, code) ← jmpAppend fs.code fs.jpc list
  return { fs with lasttarget := fs.pc, jpc := jpc, code := code }

/-! ## Registers -/

/-- `KP_MAX_SLOTS`. -/
def kpMaxSlots : ℕ := 250

/-- `bcreg_bump(fs, n)`. -/
def bcregBump (n : ℕ) (fs : EmitState) : Except EmitErr EmitState :=
  let sz := fs.freereg + n
  if fs.framesize < sz then
    if kpMaxSlots ≤ sz then .error .xslots else .ok { fs with framesize := sz }
  else .ok fs

/-- `bcreg_reserve(fs, n)`. -/
def bcregReserve (n : ℕ) (fs : EmitState) : Except EmitErr EmitState := do
  let fs ← bcregBump n fs
  return { fs with freereg := fs.freereg + n }

/-- `bcreg_free(fs, reg)`. -/
def bcregFree (reg : ℕ) (fs : EmitState) : EmitState :=
  if fs.nactvar ≤ reg then { fs with freereg := fs.freereg - 1 } else fs

/-- `expr_free(fs, e)`. -/
def exprFree (e : ExpDesc) (fs : EmitState) : EmitState :=
  match e.k with
  | .vnonreloc r => bcregFree r fs
  | _ => fs

/-! ## Instructions -/

/-- `bcemit_INS(fs, ins)`. -/
def bcemitIns (ins : Ins) (fs : EmitState) : Except EmitErr (ℕ × EmitState) := do
  let pc := fs.pc
  let code ← jmpPatchval pc noReg (some pc) fs.code.length fs.code fs.jpc
  if fs.bclim ≤ pc then .error .limit
  else return (pc, { fs with code := code ++ [ins], jpc := none })

/-- The description in front of a `VRELOCABLE`, with the instruction. -/
def relocable (e : ExpDesc) (ins : Ins) (fs : EmitState) :
    Except EmitErr (ExpDesc × EmitState) := do
  let (pc, fs) ← bcemitIns ins fs
  return ({ e with k := .vrelocable pc }, fs)

/-- `expr_discharge(fs, e)`. -/
def exprDischarge (e : ExpDesc) (fs : EmitState) : Except EmitErr (ExpDesc × EmitState) :=
  match e.k with
  | .vupval info => relocable e (.ad .uget 0 info) fs
  | .vglobal s => do
    let (c, fs) ← fs.constStr s
    relocable e (.ad .gget 0 c) fs
  | .vindexed info (.str c) => relocable e (.abc .tgets 0 info c) (bcregFree info fs)
  | .vindexed info (.byte n) => relocable e (.abc .tgetb 0 info n) (bcregFree info fs)
  | .vindexed info (.reg rc) =>
    relocable e (.abc .tgetv 0 info rc) (bcregFree info (bcregFree rc fs))
  | .vcall _ aux => .ok ({ e with k := .vnonreloc aux }, fs)
  | .vlocal info => .ok ({ e with k := .vnonreloc info }, fs)
  | _ => .ok (e, fs)

/-- `bcemit_nil(fs, from, n)`. -/
def bcemitNil (start n : ℕ) (fs : EmitState) : Except EmitErr EmitState :=
  let fresh : Except EmitErr EmitState := do
    let (_, fs) ← bcemitIns (if n =
      1 then .ad .kpri start 0 else .ad .knil start (start + n - 1)) fs
    return fs
  if fs.lasttarget < fs.pc then
    let ip := insAt fs.code (fs.pc - 1)
    if ip.op = .kpri then
      if ip.d ≠ 0 then fresh
      else if start = ip.a then
        if n = 1 then .ok fs
        else .ok { fs with code := fs.code.set (fs.pc - 1) (.ad .knil start (start + n - 1)) }
      else if start = ip.a + 1 then
        .ok { fs with code := fs.code.set (fs.pc - 1) (.ad .knil ip.a (ip.a + (n + 1) - 1)) }
      else fresh
    else if ip.op = .knil then
      if ip.a ≤ start ∧ start ≤ ip.d + 1 then
        if ip.d < start + n - 1 then
          .ok { fs with code := fs.code.set (fs.pc - 1) { ip with d := start + n - 1 } }
        else .ok fs
      else fresh
    else fresh
  else fresh

def loadNum (n : Number) (reg : ℕ) (fs : EmitState) : Except EmitErr (Ins × EmitState) :=
  if (0 : Number).sle n ∧ n.sle 0xffff then .ok (.ad .kshort reg n.toNat, fs)
  else do
    let (c, fs) ← fs.constNum n
    return (.ad .knum reg c, fs)

/-- `expr_toreg_nobranch(fs, e, reg)`. -/
def exprToregNobranch (e : ExpDesc) (reg : ℕ) (fs : EmitState) :
    Except EmitErr (ExpDesc × EmitState) := do
  let (e, fs) ← exprDischarge e fs
  let done : ExpDesc := { e with k := .vnonreloc reg }
  match e.k with
  | .vkstr s =>
    let (c, fs) ← fs.constStr s
    let (_, fs) ← bcemitIns (.ad .kstr reg c) fs
    return (done, fs)
  | .vknum n =>
    let (ins, fs) ← loadNum n reg fs
    let (_, fs) ← bcemitIns ins fs
    return (done, fs)
  | .vrelocable pc =>
    return (done, { fs with code := fs.code.set pc { insAt fs.code pc with a := reg } })
  | .vnonreloc info =>
    if reg = info then return (done, fs)
    else
      let (_, fs) ← bcemitIns (.ad .mov reg info) fs
      return (done, fs)
  | .vknil =>
    let fs ← bcemitNil reg 1 fs
    return (done, fs)
  | .vkfalse =>
    let (_, fs) ← bcemitIns (.ad .kpri reg 1) fs
    return (done, fs)
  | .vktrue =>
    let (_, fs) ← bcemitIns (.ad .kpri reg 2) fs
    return (done, fs)
  | .builtin b =>
    let (_, fs) ← bcemitIns (.ad b.op reg b.info) fs
    return (done, fs)
  | _ => return (e, fs)

/-- `bcemit_jmp(fs)`. -/
def bcemitJmp (fs : EmitState) : Except EmitErr (ℕ × EmitState) := do
  let jpc := fs.jpc
  let j := fs.pc - 1
  let ip := insAt fs.code j
  let fs := { fs with jpc := none }
  let (j, fs) ←
    if 1 ≤ fs.pc ∧ fs.lasttarget ≤ j ∧ ip.op = .uclo then
      .ok (j, { fs with code := fs.code.set j { ip with d := noJump } })
    else bcemitIns (.ad .jmp fs.freereg noJump) fs
  let (j', code) ← jmpAppend fs.code (some j) jpc
  return (j'.getD j, { fs with code := code })

/-- `expr_toreg(fs, e, reg)`. -/
def exprToreg (e : ExpDesc) (reg : ℕ) (fs : EmitState) : Except EmitErr (ExpDesc × EmitState) := do
  let (e, fs) ← exprToregNobranch e reg fs
  let (e, fs) ←
    match e.k with
    | .vjmp info => do
      let (t, code) ← jmpAppend fs.code e.t (some info)
      pure ({ e with t := t }, { fs with code := code })
    | _ => pure (e, fs)
  let done : ExpDesc := .init (.vnonreloc reg)
  if e.hasjump then
    let novalue ← do
      if ← jmpNovalue fs.code fs.code.length e.t then pure true
      else jmpNovalue fs.code fs.code.length e.f
    let (jfalse, jtrue, fs) ←
      if novalue then do
        let (jval, fs) ←
          match e.k with
          | .vjmp _ => pure (none, fs)
          | _ => do
            let (j, fs) ← bcemitJmp fs
            pure (some j, fs)
        let (jfalse, fs) ← bcemitIns (.ad .kpri reg 1) fs
        let (_, fs) ← bcemitIns (.ad .jmp fs.freereg (bcbiasJ + 1)) fs
        let (jtrue, fs) ← bcemitIns (.ad .kpri reg 2) fs
        let fs ← jmpTohere jval fs
        pure (some jfalse, some jtrue, fs)
      else pure (none, none, fs)
    let jend := fs.pc
    let code ← jmpPatchval jend reg jfalse fs.code.length fs.code e.f
    let code ← jmpPatchval jend reg jtrue code.length code e.t
    return (done, { fs with lasttarget := jend, code := code })
  else return (done, fs)

/-- `expr_tonextreg(fs, e)`. -/
def exprTonextreg (e : ExpDesc) (fs : EmitState) : Except EmitErr (ExpDesc × EmitState) := do
  let (e, fs) ← exprDischarge e fs
  let fs ← bcregReserve 1 (exprFree e fs)
  exprToreg e (fs.freereg - 1) fs

/-- `expr_toanyreg(fs, e)`; the register that it returns is that of the description. -/
def exprToanyreg (e : ExpDesc) (fs : EmitState) : Except EmitErr (ExpDesc × EmitState) := do
  let (e, fs) ← exprDischarge e fs
  match e.k with
  | .vnonreloc r =>
    if ! e.hasjump then return (e, fs)
    else if fs.nactvar ≤ r then exprToreg e r fs
    else exprTonextreg e fs
  | _ => exprTonextreg e fs

/-- `expr_toval(fs, e)`. -/
def exprToval (e : ExpDesc) (fs : EmitState) : Except EmitErr (ExpDesc × EmitState) :=
  if e.hasjump then exprToanyreg e fs else exprDischarge e fs

/-! ## Branches -/

/-- `invertcond(fs, e)`. -/
def invertcond (pc : ℕ) (fs : EmitState) : EmitState :=
  let ip := insAt fs.code (pc - 1)
  { fs with code := fs.code.set (pc - 1) { ip with op := ip.op.invert } }

/-- The operand of a `NOT` that a branch can test in its place. -/
def notOperand (e : ExpDesc) (fs : EmitState) : Option (ℕ × ℕ) :=
  match e.k with
  | .vrelocable pc => if (insAt fs.code pc).op = .not then some (pc, (insAt fs.code pc).d) else none
  | _ => none

/-- `bcemit_branch(fs, e, cond)`. -/
def bcemitBranch (e : ExpDesc) (cond : Bool) (fs : EmitState) :
    Except EmitErr (ℕ × ExpDesc × EmitState) :=
  match notOperand e fs with
  | some (at_, d) => do
    let fs := { fs with code := fs.code.set at_ (.ad (if cond then .isf else .ist) 0 d) }
    let (pc, fs) ← bcemitJmp fs
    return (pc, e, fs)
  | none => do
    let (e, fs) ←
      match e.k with
      | .vnonreloc _ => pure (e, fs)
      | _ => do
        let fs ← bcregReserve 1 fs
        exprToregNobranch e (fs.freereg - 1) fs
    let (_, fs) ← bcemitIns (.ad (if cond then .istc else .isfc) noReg e.k.info) fs
    let (pc, fs) ← bcemitJmp fs
    return (pc, e, exprFree e fs)

/-- A constant that is loaded in no register yet, with a jump behind it. -/
def constBranch (e : ExpDesc) (fs : EmitState) : Except EmitErr (ℕ × ExpDesc × EmitState) := do
  let (e, fs) ← exprToregNobranch e noReg fs
  let (pc, fs) ← bcemitJmp fs
  return (pc, e, fs)

/-- `bcemit_branch_t(fs, e)`. -/
def bcemitBranchT (e : ExpDesc) (fs : EmitState) : Except EmitErr (ExpDesc × EmitState) := do
  let (e, fs) ← exprDischarge e fs
  let (pc, e, fs) ←
    match e.k with
    | .vkstr _ | .vknum _ | .vktrue => pure (none, e, fs)
    | .vjmp info => pure (some info, e, invertcond info fs)
    | .vkfalse | .vknil => do
      let (pc, e, fs) ← constBranch e fs
      pure (some pc, e, fs)
    | _ => do
      let (pc, e, fs) ← bcemitBranch e false fs
      pure (some pc, e, fs)
  let (f, code) ← jmpAppend fs.code e.f pc
  let fs ← jmpTohere e.t { fs with code := code }
  return ({ e with t := none, f := f }, fs)

/-- `bcemit_branch_f(fs, e)`. -/
def bcemitBranchF (e : ExpDesc) (fs : EmitState) : Except EmitErr (ExpDesc × EmitState) := do
  let (e, fs) ← exprDischarge e fs
  let (pc, e, fs) ←
    match e.k with
    | .vknil | .vkfalse => pure (none, e, fs)
    | .vjmp info => pure (some info, e, fs)
    | .vkstr _ | .vknum _ | .vktrue => do
      let (pc, e, fs) ← constBranch e fs
      pure (some pc, e, fs)
    | _ => do
      let (pc, e, fs) ← bcemitBranch e true fs
      pure (some pc, e, fs)
  let (t, code) ← jmpAppend fs.code e.t pc
  let fs ← jmpTohere e.f { fs with code := code }
  return ({ e with t := t, f := none }, fs)

end User

end Ktap
