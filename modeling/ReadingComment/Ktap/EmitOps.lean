import ReadingComment.Ktap.Emit

/-!
# The code of operators (`userspace/kp_parse.c`)

What `bcemit_unop`, `bcemit_binop_left` and `bcemit_binop` emit for the operands that
`expr_binop` and `expr_unop` have read. Arithmetic on two number constants is done by the
compiler, if `foldarith` finds nothing against it; other arithmetic becomes one
instruction, which has room for one number constant of a small index.
-/

namespace Ktap.User

/-! ## Arithmetic -/

def BinOpr.arith : BinOpr → Option ArithOpr
  | .add => some .add
  | .sub => some .sub
  | .mul => some .mul
  | .div => some .div
  | .mod => some .mod
  | _ => none

/-- `number_foldarith(x, y, op)`. -/
def numberFoldarith (x y : Number) : BinOpr → Except EmitErr Number
  | .add => .ok (x + y)
  | .sub => .ok (x - y)
  | .mul => .ok (x * y)
  | .div =>
    match ArithOpr.div.compute x y with
    | .ok n => .ok n
    | _ => .error .divide
  | _ => .ok x

/-- `foldarith(opr, e1, e2)`, with the number that replaces the constant of `e1`. -/
def foldarith (opr : BinOpr) (e1 e2 : ExpDesc) : Except EmitErr (Option Number) :=
  match e1.numkNojump, e2.numkNojump with
  | some x, some y =>
    -- "do not attempt to divide by 0"
    if opr = .div ∧ y = 0 then .ok none
    -- "ktap current do not suppor pow arith"
    else if opr = .mod then .ok none
    else do
      let n ← numberFoldarith x y opr
      return some n
  | _, _ => .ok none

/-- The number constant of an operand, if its index fits the field `B` or `C`. -/
def constOperand (e : ExpDesc) (fs : EmitState) : Except EmitErr (Option ℕ × EmitState) :=
  match e.numk with
  | some n => do
    let (c, fs) ← fs.constNum n
    return (if c ≤ bcmaxC then some c else none, fs)
  | none => .ok (none, fs)

/-- The operands of an arithmetic instruction: the instruction, and the descriptions that they are
left with. -/
def arithOperands (o : ArithOpr) (e1 e2 : ExpDesc) (fs : EmitState) :
    Except EmitErr (Ins × ExpDesc × ExpDesc × EmitState) := do
  -- "Must discharge 2nd operand first since VINDEXED might free regs."
  let (e2, fs) ← exprToval e2 fs
  let (c2, fs) ← constOperand e2 fs
  match c2 with
  | some rc =>
    let (e1, fs) ← exprToval e1 fs
    let (e1, fs) ← exprToanyreg e1 fs
    return (.abc (.vn o) 0 e1.k.info rc, e1, e2, fs)
  | none =>
    let (e2, fs) ← exprToanyreg e2 fs
    let (e1, fs) ← exprToval e1 fs
    -- "Avoid two consts to satisfy bytecode constraints."
    let (c1, fs) ← constOperand e1 fs
    match c1 with
    | some t => return (.abc (.nv o) 0 e2.k.info t, e1, e2, fs)
    | none =>
      let (e1, fs) ← exprToanyreg e1 fs
      return (.abc (.vv o) 0 e1.k.info e2.k.info, e1, e2, fs)

/-- The operands of `POW`. -/
def powOperands (e1 e2 : ExpDesc) (fs : EmitState) :
    Except EmitErr (Ins × ExpDesc × ExpDesc × EmitState) := do
  let (e2, fs) ← exprToanyreg e2 fs
  let (e1, fs) ← exprToanyreg e1 fs
  return (.abc .pow 0 e1.k.info e2.k.info, e1, e2, fs)

/-- `bcemit_arith(fs, opr, e1, e2)`. -/
def bcemitArith (opr : BinOpr) (e1 e2 : ExpDesc) (fs : EmitState) :
    Except EmitErr (ExpDesc × EmitState) := do
  match ← foldarith opr e1 e2 with
  | some n => return ({ e1 with k := .vknum n }, fs)
  | none =>
    let (ins, e1, e2, fs) ←
      match opr.arith with
      | some o => arithOperands o e1 e2 fs
      | none => powOperands e1 e2 fs
    let fs := exprFree e2 (exprFree e1 fs)
    relocable e1 ins fs

/-! ## Comparisons -/

def eqIns (opr : BinOpr) (ra : ℕ) (e : ExpDesc) (fs : EmitState) :
    Except EmitErr (Ins × ExpDesc × EmitState) :=
  let op (eq ne : BCOp) : BCOp := if opr = .eq then eq else ne
  match e.k with
  | .vknil => .ok (.ad (op .iseqp .isnep) ra 0, e, fs)
  | .vkfalse => .ok (.ad (op .iseqp .isnep) ra 1, e, fs)
  | .vktrue => .ok (.ad (op .iseqp .isnep) ra 2, e, fs)
  | .vkstr s => do
    let (c, fs) ← fs.constStr s
    return (.ad (op .iseqs .isnes) ra c, e, fs)
  | .vknum n => do
    let (c, fs) ← fs.constNum n
    return (.ad (op .iseqn .isnen) ra c, e, fs)
  | _ => do
    let (e, fs) ← exprToanyreg e fs
    return (.ad (op .iseqv .isnev) ra e.k.info, e, fs)

/-- `ISLT` and `ISLE`, with whether the operands are swapped: "GT -> LT, GE -> LE". -/
def orderOp : BinOpr → BCOp × Bool
  | .ge => (.isle, true)
  | .le => (.isle, false)
  | .gt => (.islt, true)
  | _ => (.islt, false)

/-- `bcemit_comp(fs, opr, e1, e2)`. -/
def bcemitComp (opr : BinOpr) (e1 e2 : ExpDesc) (fs : EmitState) :
    Except EmitErr (ExpDesc × EmitState) := do
  let (e1, fs) ← exprToval e1 fs
  if opr = .eq ∨ opr = .ne then
    -- "Need constant in 2nd arg."
    let (x, y) := if e1.isk then (e2, e1) else (e1, e2)
    let (x, fs) ← exprToanyreg x fs
    let (y, fs) ← exprToval y fs
    let (ins, y, fs) ← eqIns opr x.k.info y fs
    let fs := exprFree y (exprFree x fs)
    let (_, fs) ← bcemitIns ins fs
    let (pc, fs) ← bcemitJmp fs
    return ({ (if e1.isk then y else x) with k := .vjmp pc }, fs)
  else
    let (op, swapped) := orderOp opr
    if swapped then
      let (e2, fs) ← exprToval e2 fs
      let (e1, fs) ← exprToanyreg e1 fs
      let (e2, fs) ← exprToanyreg e2 fs
      let fs := exprFree e1 (exprFree e2 fs)
      let (_, fs) ← bcemitIns (.ad op e2.k.info e1.k.info) fs
      let (pc, fs) ← bcemitJmp fs
      return ({ e1 with k := .vjmp pc }, fs)
    else
      let (e2, fs) ← exprToanyreg e2 fs
      let (e1, fs) ← exprToanyreg e1 fs
      let fs := exprFree e2 (exprFree e1 fs)
      let (_, fs) ← bcemitIns (.ad op e1.k.info e2.k.info) fs
      let (pc, fs) ← bcemitJmp fs
      return ({ e1 with k := .vjmp pc }, fs)

/-! ## Operators -/

/-- `bcemit_binop_left(fs, op, e)`. -/
def bcemitBinopLeft (op : BinOpr) (e : ExpDesc) (fs : EmitState) :
    Except EmitErr (ExpDesc × EmitState) :=
  match op with
  | .and => bcemitBranchT e fs
  | .or => bcemitBranchF e fs
  | .concat => exprTonextreg e fs
  | .eq | .ne => if e.iskNojump then .ok (e, fs) else exprToanyreg e fs
  | _ => if e.numkNojump.isSome then .ok (e, fs) else exprToanyreg e fs

/-- The `CAT` that an operand ends with. -/
def catOperand (e : ExpDesc) (fs : EmitState) : Option ℕ :=
  match e.k with
  | .vrelocable pc => if (insAt fs.code pc).op = .cat then some pc else none
  | _ => none

/-- `OPR_CONCAT` of `bcemit_binop`. -/
def bcemitConcat (e1 e2 : ExpDesc) (fs : EmitState) : Except EmitErr (ExpDesc × EmitState) := do
  let (e2, fs) ← exprToval e2 fs
  match catOperand e2 fs with
  | some pc =>
    let fs := exprFree e1 fs
    let i := insAt fs.code pc
    return ({ e1 with k := .vrelocable pc },
      { fs with code := fs.code.set pc { i with d := 256 * e1.k.info + i.c } })
  | none =>
    let (e2, fs) ← exprTonextreg e2 fs
    let fs := exprFree e1 (exprFree e2 fs)
    relocable e1 (.abc .cat 0 e1.k.info e2.k.info) fs

/-- `bcemit_binop(fs, op, e1, e2)`. -/
def bcemitBinop (op : BinOpr) (e1 e2 : ExpDesc) (fs : EmitState) :
    Except EmitErr (ExpDesc × EmitState) :=
  match op with
  | .add | .sub | .mul | .div | .mod | .pow => bcemitArith op e1 e2 fs
  | .and => do
    let (e2, fs) ← exprDischarge e2 fs
    let (f, code) ← jmpAppend fs.code e2.f e1.f
    return ({ e2 with f := f }, { fs with code := code })
  | .or => do
    let (e2, fs) ← exprDischarge e2 fs
    let (t, code) ← jmpAppend fs.code e2.t e1.t
    return ({ e2 with t := t }, { fs with code := code })
  | .concat => bcemitConcat e1 e2 fs
  | _ => bcemitComp op e1 e2 fs

/-- The end of `bcemit_unop`: the operand is in the register `u.s.info`. -/
def unopIns (op : BCOp) (e : ExpDesc) (fs : EmitState) : Except EmitErr (ExpDesc × EmitState) :=
  relocable e (.ad op 0 e.k.info) (exprFree e fs)

/-- `bcemit_unop(fs, op, e)`. -/
def bcemitUnop (op : UnOpr) (e : ExpDesc) (fs : EmitState) : Except EmitErr (ExpDesc × EmitState) :=
  match op with
  | .not => do
    -- "Swap true and false lists."
    let e : ExpDesc := { e with t := e.f, f := e.t }
    let code ← jmpDropval fs.code.length fs.code e.f
    let code ← jmpDropval code.length code e.t
    let (e, fs) ← exprDischarge e { fs with code := code }
    match e.k with
    | .vknil | .vkfalse => return ({ e with k := .vktrue }, fs)
    | .vktrue | .vkstr _ | .vknum _ => return ({ e with k := .vkfalse }, fs)
    | .vjmp info => return (e, invertcond info fs)
    | .vrelocable pc =>
      let fs ← bcregReserve 1 fs
      let ins := { insAt fs.code pc with a := fs.freereg - 1 }
      unopIns .not { e with k := .vnonreloc (fs.freereg - 1) }
        { fs with code := fs.code.set pc ins }
    -- expected to be a `VNONRELOC`
    | _ => unopIns .not e fs
  | .unm =>
    match e.numkNojump with
    | some n =>
      -- "Avoid folding to -0."
      if n = 0 then do
        let (e, fs) ← exprToanyreg e fs
        unopIns .unm e fs
      else .ok ({ e with k := .vknum (-n) }, fs)
    | none => do
      let (e, fs) ← exprToanyreg e fs
      unopIns .unm e fs

/-! ## Expressions -/

def wordBuiltin : String → Option Builtin
  | "arg0" => some (.argn 0)
  | "arg1" => some (.argn 1)
  | "arg2" => some (.argn 2)
  | "arg3" => some (.argn 3)
  | "arg4" => some (.argn 4)
  | "arg5" => some (.argn 5)
  | "arg6" => some (.argn 6)
  | "arg7" => some (.argn 7)
  | "arg8" => some (.argn 8)
  | "arg9" => some (.argn 9)
  | "argstr" => some .argstr
  | "probename" => some .argname
  | "pid" => some .pid
  | "tid" => some .tid
  | "uid" => some .uid
  | "cpu" => some .cpu
  | "execname" => some .execname
  | _ => none

/-- What `expr_simple` makes of a token; a name is looked up. -/
def operandKind (lookup : TVal → ExpKind) (x : Lexeme) : ExpKind :=
  match x.tok with
  | .number => .vknum x.val.word
  | .string => .vkstr x.val.word
  | .reserved "nil" => .vknil
  | .reserved "true" => .vktrue
  | .reserved "false" => .vkfalse
  | .reserved word =>
    match wordBuiltin word with
    | some b => .builtin b
    | none => .vvoid
  | _ => lookup x.val

/-- The end of `parse_args`: one argument at most, which is no call. -/
def emitCall (e : ExpDesc) (arg : Option ExpDesc) (fs : EmitState) :
    Except EmitErr (ExpDesc × EmitState) := do
  let base := e.k.info
  let fs ←
    match arg with
    | some arg => do
      let (_, fs) ← exprTonextreg arg fs
      pure fs
    | none => pure fs
  let (pc, fs) ← bcemitIns (.abc (.other 71) base 2 (fs.freereg - base)) fs
  return (.init (.vcall pc base), { fs with freereg := base + 1 })

/-- The emitting functions of the parser of expressions; `lookup` is `var_lookup`. -/
def exprActions (lookup : TVal → ExpKind) : Actions EmitState EmitErr ExpDesc where
  operand := fun x fs => .ok (.init (operandKind lookup x), fs)
  discharge := exprDischarge
  callee := exprTonextreg
  call := emitCall
  unop := bcemitUnop
  binopLeft := bcemitBinopLeft
  binop := bcemitBinop

end Ktap.User
