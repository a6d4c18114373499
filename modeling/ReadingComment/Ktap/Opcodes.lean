import ReadingComment.Ktap.Vm

/-!
# All operations of the bytecode (`include/ktap_bc.h`, `userspace/kp_parse.c`)

The table `BCDEF` in full, what each case of `kp_vm_call` does with the registers its
instruction names, and where the loop goes on after it. A prototype carries what
`fs_finish` makes sure of: `bcreg_bump` has made the frame large enough for every
register, every jump stays inside the code, and code that runs in a circle passes one
of the instructions that count (`LOOP`, `FORL`, `ITERN`).
-/

namespace Ktap.Vm

/-- The operations, in the order of `BCDEF`. -/
inductive Opcode where
  | islt | isge | isle | isgt
  | iseqv | isnev | iseqs | isnes | iseqn | isnen | iseqp | isnep
  | istc | isfc | ist | isf | istype | isnum
  | mov | not | unm
  | addvn | subvn | mulvn | divvn | modvn
  | addnv | subnv | mulnv | divnv | modnv
  | addvv | subvv | mulvv | divvv | modvv
  | pow | cat
  | kstr | kcdata | kshort | knum | kpri | knil
  | uget | usetv | uincv | usets | usetn | uincn | usetp | uclo | fnew
  | tnew | tdup | gget | gset | ginc
  | tgetv | tgets | tgetb | tgetr
  | tsetv | tincv | tsets | tincs | tsetb | tincb | tsetm | tsetr
  | callm | call | callmt | callt | iterc | itern | varg | isnext
  | retm | ret | ret0 | ret1
  | fori | jfori | forl | iforl | jforl | iterl | iiterl | jiterl
  | loop | iloop | jloop | jmp
  | funcf | ifuncf | jfuncf | funcv | ifuncv | jfuncv | funcc | funccw
  | vargn | vargstr | vprobename | vpid | vtid | vuid | vcpu | vexecname
  | gfunc
  deriving DecidableEq, Repr

/-- What the cases of the dispatch loop do. -/
inductive Kind where
  /-- values are stored, the next instruction follows -/
  | store
  /-- the jump that follows is taken or skipped -/
  | test
  | jump
  | call
  | callt
  | itern
  | isnext
  | ret0
  | ret1
  | fori
  | forl
  | loop
  /-- `kp_vm_call` is left -/
  | leave
  deriving DecidableEq, Repr

def Opcode.kind : Opcode → Kind
  | .islt | .isge | .isle | .isgt | .iseqv | .isnev | .iseqs | .isnes | .iseqn | .isnen
  | .iseqp | .isnep | .istc | .isfc | .ist | .isf => .test
  | .uclo | .jmp => .jump
  | .callm | .call => .call
  | .callt => .callt
  | .itern => .itern
  | .isnext => .isnext
  | .ret0 => .ret0
  | .ret1 => .ret1
  | .fori => .fori
  | .forl => .forl
  | .loop => .loop
  | .istype | .isnum | .pow | .gset | .ginc | .tgetr | .tsetm | .tsetr | .callmt | .iterc
  | .varg | .retm | .ret | .jfori | .iforl | .jforl | .iterl | .iiterl | .jiterl | .iloop
  | .jloop | .funcf | .ifuncf | .jfuncf | .funcv | .ifuncv | .jfuncv | .funcc
  | .funccw => .leave
  | _ => .store

/-- The operations that call `check_hot_loop`. -/
def Kind.counts : Kind → Bool
  | .itern | .forl | .loop => true
  | _ => false

def Opcode.setsUpval : Opcode → Bool
  | .usetv | .uincv | .usets | .usetn | .uincn | .usetp => true
  | _ => false

/-- A `BCIns`. -/
structure Instr where
  op : Opcode
  a : ℕ
  d : ℕ
  deriving DecidableEq, Repr

namespace Instr

/-- `bc_b`. -/
def b (i : Instr) : ℕ := i.d / 256

/-- `bc_c`. -/
def c (i : Instr) : ℕ := i.d % 256

/-- `BCINS_ABC`. -/
def abc (op : Opcode) (a b c : ℕ) : Instr := ⟨op, a, 256 * b + c⟩

def reads (i : Instr) : List ℕ :=
  match i.op with
  | .islt | .isge | .isle | .isgt | .iseqv | .isnev => [i.a, i.d]
  | .iseqs | .isnes | .iseqn | .isnen | .iseqp | .isnep => [i.a]
  | .istc | .isfc | .ist | .isf | .mov | .not | .unm | .usetv | .uincv => [i.d]
  | .addvn | .subvn | .mulvn | .divvn | .modvn | .addnv | .subnv | .mulnv | .divnv | .modnv
  | .tgets | .tgetb => [i.b]
  | .addvv | .subvv | .mulvv | .divvv | .modvv | .tgetv => [i.b, i.c]
  | .cat => List.range' i.b (i.c + 1 - i.b)
  | .tsetv | .tincv => [i.a, i.b, i.c]
  | .tsets | .tincs | .tsetb | .tincb => [i.a, i.b]
  | .call => List.range' i.a i.c
  | .callm => List.range' i.a (i.c + 1)
  | .callt | .ret1 => [i.a]
  | .itern => [i.a - 2, i.a]
  | .isnext => [i.a - 3, i.a - 2, i.a - 1]
  | .fori | .forl => [i.a, i.a + 1, i.a + 2]
  | _ => []

def writes (i : Instr) : List ℕ :=
  match i.op with
  | .istc | .isfc | .mov | .not | .unm
  | .addvn | .subvn | .mulvn | .divvn | .modvn | .addnv | .subnv | .mulnv | .divnv | .modnv
  | .addvv | .subvv | .mulvv | .divvv | .modvv | .cat | .kstr | .kshort | .knum | .kpri
  | .uget | .fnew | .tnew | .tdup | .gget | .tgetv | .tgets | .tgetb | .isnext
  | .vargn | .vargstr | .vprobename | .vpid | .vtid | .vuid | .vcpu | .vexecname
  | .gfunc => [i.a]
  | .knil => List.range' i.a (i.d + 1 - i.a)
  | .call | .callm => List.range' i.a (i.b - 1)
  | .itern => [i.a, i.a + 1]
  | .fori => [i.a + 3]
  | .forl => [i.a, i.a + 3]
  | _ => []

/-- `dojump` at an instruction that stands at `k`. -/
def target (i : Instr) (k : ℕ) : ℕ := k + 1 + i.d - bcbiasJ

end Instr

/-- The places in the same function where the loop goes on after the instruction at `k`. -/
def succs (C : ℕ → Instr) (k : ℕ) : List ℕ :=
  match (C k).op.kind with
  | .store | .call | .loop => [k + 1]
  | .test | .itern => [(C (k + 1)).target (k + 1), k + 2]
  | .jump | .isnext => [(C k).target k]
  | .fori | .forl => [k + 1, (C k).target k]
  | .callt | .ret0 | .ret1 | .leave => []

/-- The instruction at a place; there is a function header where there is none. -/
def fetch (bc : List Instr) (k : ℕ) : Instr := (bc[k]?).getD ⟨.funcf, 0, 0⟩

/-- A prototype as `fs_finish` makes it. What the propositions say of the code is promised by the
compiler: it is the assumption on the bytecode here, and is not derived from the parser. -/
structure Proto where
  numparams : ℕ
  framesize : ℕ
  vararg : Bool
  /-- the instructions, the function header first -/
  bc : List Instr
  /-- the parameters are the first registers -/
  numparams_le : numparams ≤ framesize
  /-- the function header is not the only instruction -/
  start_lt : 1 < bc.length
  reg_lt : ∀ k, 1 ≤ k → k < bc.length → ∀ r ∈ (fetch bc k).reads ++ (fetch bc k).writes,
    r < framesize
  /-- a call has its function in a register, with the arguments behind it -/
  call_pos : ∀ k, 1 ≤ k → k < bc.length → (fetch bc k).op = .call → (fetch bc k).c ≠ 0
  /-- three hidden registers stand before the variables of an iteration -/
  iter_ge : ∀ k, 1 ≤ k → k < bc.length → (fetch bc k).op = .itern ∨ (fetch bc k).op = .isnext →
    3 ≤ (fetch bc k).a
  /-- `ISNEXT` leads to the `ITERN` of its loop -/
  isnext_itern : ∀ k, 1 ≤ k → k < bc.length → (fetch bc k).op = .isnext →
    (fetch bc ((fetch bc k).target k)).op = .itern
  /-- control stays in the code, and a circle passes an instruction that counts -/
  flows : ∃ rank : ℕ → ℕ, ∀ k, 1 ≤ k → k < bc.length →
    (1 ≤ rank k ∧ rank k ≤ bc.length) ∧
      ∀ l ∈ succs (fetch bc) k, (1 ≤ l ∧ l < bc.length) ∧
        ((fetch bc k).op.kind.counts = false → rank l < rank k)

/-- What a prototype promises of the instruction at `k`. -/
def Keeps (framesize : ℕ) (bc : List Instr) (rank : ℕ → ℕ) (k : ℕ) : Prop :=
  (∀ r ∈ (fetch bc k).reads ++ (fetch bc k).writes, r < framesize) ∧
    ((fetch bc k).op = .call → (fetch bc k).c ≠ 0) ∧
    ((fetch bc k).op = .itern ∨ (fetch bc k).op = .isnext → 3 ≤ (fetch bc k).a) ∧
    ((fetch bc k).op = .isnext → (fetch bc ((fetch bc k).target k)).op = .itern) ∧
    (1 ≤ rank k ∧ rank k ≤ bc.length) ∧
      ∀ l ∈ succs (fetch bc) k, (1 ≤ l ∧ l < bc.length) ∧
        ((fetch bc k).op.kind.counts = false → rank l < rank k)

instance (framesize : ℕ) (bc : List Instr) (rank : ℕ → ℕ) (k : ℕ) :
    Decidable (Keeps framesize bc rank k) := by
  unfold Keeps
  infer_instance

/-- A prototype without parameters whose promises are checked instruction by instruction. -/
def Proto.ofKeeps (framesize : ℕ) (vararg : Bool) (bc : List Instr) (rank : ℕ → ℕ)
    (hstart : 1 < bc.length)
    (h : ∀ k ∈ List.range' 1 (bc.length - 1), Keeps framesize bc rank k) : Proto :=
  have hk : ∀ k, 1 ≤ k → k < bc.length → Keeps framesize bc rank k :=
    fun k h1 hlt => h k (List.mem_range'_1.mpr ⟨h1, by omega⟩)
  { numparams := 0
    framesize := framesize
    vararg := vararg
    bc := bc
    numparams_le := Nat.zero_le framesize
    start_lt := hstart
    reg_lt := fun k h1 hlt => (hk k h1 hlt).1
    call_pos := fun k h1 hlt => (hk k h1 hlt).2.1
    iter_ge := fun k h1 hlt => (hk k h1 hlt).2.2.1
    isnext_itern := fun k h1 hlt => (hk k h1 hlt).2.2.2.1
    flows := ⟨rank, fun k h1 hlt => (hk k h1 hlt).2.2.2.2⟩ }

abbrev Program (π : Type) : Type := π → Proto

end Ktap.Vm
