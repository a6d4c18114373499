import ReadingComment.Ktap.Value

/-!
# Instructions and the dispatch loop (`include/ktap_bc.h`, `runtime/kp_vm.c`)

The instructions that code for expressions is made of, and what the dispatch loop of
`kp_vm_call` does with them. An instruction has an operation, a field `A` of 8 bits and a
field `D` of 16 bits; `B` and `C` are the two halves of `D`. A comparison is followed by a
`JMP`, which it takes or skips.

The loop ends with an error of the machine, or, where nothing checks the operands of a
division, with a fault of the processor.
-/

namespace Ktap

/-- The arithmetic operators. -/
inductive ArithOpr where
  | add
  | sub
  | mul
  | div
  | mod
  deriving DecidableEq, Repr

/-- The operations `BC_*` of the code of expressions. -/
inductive BCOp where
  | islt
  | isge
  | isle
  | isgt
  | iseqv
  | isnev
  | iseqs
  | isnes
  | iseqn
  | isnen
  | iseqp
  | isnep
  | istc
  | isfc
  | ist
  | isf
  | mov
  | not
  | unm
  /-- `ADDVN`, `SUBVN`, ... -/
  | vn (o : ArithOpr)
  /-- `ADDNV`, `SUBNV`, ... -/
  | nv (o : ArithOpr)
  /-- `ADDVV`, `SUBVV`, ... -/
  | vv (o : ArithOpr)
  | kstr
  | kshort
  | knum
  | kpri
  | knil
  | uclo
  | jmp
  /-- an operation that code for expressions does not have -/
  | other (op : ℕ)
  deriving DecidableEq, Repr

/-- `BCMAX_C`, also `BCMAX_B`. -/
def bcmaxC : ℕ := 0xff

/-- `BCMAX_D`. -/
def bcmaxD : ℕ := 0xffff

/-- `BCBIAS_J`. -/
def bcbiasJ : ℕ := 0x8000

/-- The offset of a jump from `pc` to `dest`, `dest-(pc+1)+BCBIAS_J` as a `BCPos`. -/
def jumpOffset (pc dest : ℕ) : ℕ := (2 ^ 32 + dest - (pc + 1) + bcbiasJ) % 2 ^ 32

/-- `NO_REG`. -/
def noReg : ℕ := 0xff

/-- A `BCIns`. -/
structure Ins where
  op : BCOp
  a : ℕ
  d : ℕ
  deriving DecidableEq, Repr

namespace Ins

/-- `bc_b`. -/
def b (i : Ins) : ℕ := i.d / 256

/-- `bc_c`. -/
def c (i : Ins) : ℕ := i.d % 256

/-- `BCINS_AD`; what does not fit `D` is lost. -/
def ad (op : BCOp) (a d : ℕ) : Ins := ⟨op, a, d % 2 ^ 16⟩

/-- `BCINS_ABC`. -/
def abc (op : BCOp) (a b c : ℕ) : Ins := ⟨op, a, (256 * b + c) % 2 ^ 16⟩

end Ins

abbrev Regs (σ : Type) : Type := ℕ → Val σ

/-- The constants of a prototype. -/
structure Consts (σ : Type) where
  kn : List Number
  kgc : List σ

/-- What an instruction computes. -/
inductive Res (α : Type) where
  | ok (v : α)
  /-- an error of the machine -/
  | err
  /-- a fault of the processor -/
  | fault
  /-- not an instruction for expressions, or not a constant of the prototype -/
  | stuck
  deriving DecidableEq, Repr

section machine

variable {σ : Type} [DecidableEq σ]

/-- Neither `nil` nor `false`. -/
def Val.truthy : Val σ → Bool
  | .nil => false
  | .bool b => b
  | _ => true

/-- The least `ktap_number`. -/
def longMin : Number := BitVec.intMin 64

/-- `op(x, y)` on the processor: a division by zero and the quotient that does not fit
fault. -/
def ArithOpr.compute (o : ArithOpr) (x y : Number) : Res Number :=
  match o with
  | .add => .ok (x + y)
  | .sub => .ok (x - y)
  | .mul => .ok (x * y)
  | .div => if y = 0 ∨ (x = longMin ∧ y = -1) then .fault else .ok (x.sdiv y)
  | .mod => if y = 0 ∨ (x = longMin ∧ y = -1) then .fault else .ok (x.srem y)

/-- The operators whose divisor is checked in the forms `VN` and `NV`. -/
def ArithOpr.divides : ArithOpr → Bool
  | .div | .mod => true
  | _ => false

/-- `arith_VV`, `arith_VN` and `arith_NV` on the two operands. -/
def arith (o : ArithOpr) (x y : Val σ) : Res (Val σ) :=
  match x, y with
  | .num x, .num y =>
    match o.compute x y with
    | .ok n => .ok (.num n)
    | _ => .fault
  | _, _ => .err

/-- The same with the check for a divisor that is zero before it. -/
def arithChecked (o : ArithOpr) (x y : Val σ) : Res (Val σ) :=
  if o.divides ∧ y = .num 0 then .err else arith o x y

/-- The value of type `~d` that `KPRI` makes. -/
def kpriVal (d : ℕ) : Res (Val σ) :=
  match d with
  | 0 => .ok .nil
  | 1 => .ok (.bool false)
  | 2 => .ok (.bool true)
  | _ => .stuck

def Consts.num (K : Consts σ) (i : ℕ) : Res (Val σ) :=
  match K.kn[i]? with
  | some n => .ok (.num n)
  | none => .stuck

def Consts.str (K : Consts σ) (i : ℕ) : Res (Val σ) :=
  match K.kgc[i]? with
  | some s => .ok (.str s)
  | none => .stuck

def Res.bind {α β : Type} (r : Res α) (f : α → Res β) : Res β :=
  match r with
  | .ok v => f v
  | .err => .err
  | .fault => .fault
  | .stuck => .stuck

/-- The value that an instruction with one destination register stores there. -/
def value (K : Consts σ) (i : Ins) (ρ : Regs σ) : Res (Val σ) :=
  match i.op with
  | .mov => .ok (ρ i.d)
  | .not => .ok (.bool (! (ρ i.d).truthy))
  | .unm =>
    match ρ i.d with
    | .num n => .ok (.num (-n))
    | _ => .err
  | .vn o => (K.num i.c).bind fun k => arithChecked o (ρ i.b) k
  | .nv o => (K.num i.c).bind fun k => arithChecked o k (ρ i.b)
  | .vv o => arith o (ρ i.b) (ρ i.c)
  | .kstr => K.str i.d
  | .kshort => .ok (.num (BitVec.ofNat 64 i.d))
  | .knum => K.num i.d
  | .kpri => kpriVal i.d
  | _ => .stuck

def compare (f : Number → Number → Bool) (x y : Val σ) : Res Bool :=
  match x, y with
  | .num x, .num y => .ok (f x y)
  | _, _ => .err

def cond (K : Consts σ) (i : Ins) (ρ : Regs σ) : Res Bool :=
  match i.op with
  | .islt => compare (fun x y => x.slt y) (ρ i.a) (ρ i.d)
  | .isge => compare (fun x y => ! x.slt y) (ρ i.a) (ρ i.d)
  | .isle => compare (fun x y => ! y.slt x) (ρ i.a) (ρ i.d)
  | .isgt => compare (fun x y => y.slt x) (ρ i.a) (ρ i.d)
  | .iseqv => .ok (kpObjEqual (ρ i.a) (ρ i.d))
  | .isnev => .ok (! kpObjEqual (ρ i.a) (ρ i.d))
  | .iseqs => (K.str i.d).bind fun k => .ok (ρ i.a = k)
  | .isnes => (K.str i.d).bind fun k => .ok (ρ i.a ≠ k)
  | .iseqn => (K.num i.d).bind fun k => .ok (ρ i.a = k)
  | .isnen => (K.num i.d).bind fun k => .ok (ρ i.a ≠ k)
  | .iseqp => .ok ((ρ i.a).itype.word = ~~~BitVec.ofNat 32 i.d)
  | .isnep => .ok ((ρ i.a).itype.word ≠ ~~~BitVec.ofNat 32 i.d)
  | .ist => .ok (ρ i.d).truthy
  | .isf => .ok (! (ρ i.d).truthy)
  | _ => .stuck

/-- The kinds of operations: where the loop goes on after them. -/
inductive OpKind where
  /-- one value is stored, the next instruction follows -/
  | value
  /-- a jump follows that is taken or skipped -/
  | test
  /-- the same, and the value tested is copied if the jump is taken -/
  | copy
  | nils
  | jump
  | other
  deriving DecidableEq, Repr

def BCOp.kind : BCOp → OpKind
  | .islt | .isge | .isle | .isgt | .iseqv | .isnev | .iseqs | .isnes | .iseqn | .isnen
  | .iseqp | .isnep | .ist | .isf => .test
  | .istc | .isfc => .copy
  | .mov | .not | .unm | .vn _ | .nv _ | .vv _ | .kstr | .kshort | .knum | .kpri => .value
  | .knil => .nils
  | .jmp => .jump
  | .uclo | .other _ => .other

/-- A state of the dispatch loop. -/
structure State (σ : Type) where
  pc : ℕ
  regs : Regs σ

/-- `dojump` at a `JMP` that stands at `pc`. -/
def jumpTarget (pc : ℕ) (i : Ins) : ℕ := pc + 1 + i.d - bcbiasJ

/-- `pc++` or `donextjump` after a test. -/
def branch (C : ℕ → Ins) (pc : ℕ) (b : Bool) (ρ : Regs σ) : State σ :=
  if b then ⟨jumpTarget (pc + 1) (C (pc + 1)), ρ⟩ else ⟨pc + 2, ρ⟩

def step (C : ℕ → Ins) (K : Consts σ) (s : State σ) : Res (State σ) :=
  let i := C s.pc
  match i.op.kind with
  | .value => (value K i s.regs).bind fun v => .ok ⟨s.pc + 1, Function.update s.regs i.a v⟩
  | .test => (cond K i s.regs).bind fun b => .ok (branch C s.pc b s.regs)
  | .copy =>
    -- `ISTC` jumps on a true value and `ISFC` on a false one
    if (s.regs i.d).truthy = (i.op = .istc) then
      .ok (branch C s.pc true (Function.update s.regs i.a (s.regs i.d)))
    else .ok (branch C s.pc false s.regs)
  | .nils => .ok ⟨s.pc + 1, fun r => if i.a ≤ r ∧ r ≤ i.d then .nil else s.regs r⟩
  | .jump => .ok ⟨jumpTarget s.pc i, s.regs⟩
  | .other => .stuck

end machine

end Ktap
