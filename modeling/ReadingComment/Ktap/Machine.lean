import ReadingComment.Ktap.Opcodes
import ReadingComment.Lib.Run

/-!
# The frames of the dispatch loop (`runtime/kp_vm.c`)

`kp_vm_call` keeps its frames on the stack of the machine: the cell below the registers of a
function holds the function and, while it is being executed, in place of the type the instruction to
return to (`pcr`). `func`, `base`, `pt`, `fn`, `pc` and the field `top` describe the frame in use.

What instructions compute is left open: a step is given the values that its instruction stores, the
outcome of its test and what a C function pushes. `Program` is the prototypes; an address is an
index into `ks->stack`, and `last` is `ks->stack_last`.
-/

namespace Ktap.Vm

/-- `KTAP_MIN_RESERVED_STACK_SIZE`. -/
def ktapMinReservedStackSize : ℕ := 20

/-- A pointer to an instruction. -/
@[ext] structure Pc (π : Type) : Type where
  proto : π
  ix : ℕ
  deriving DecidableEq, Repr

/-- The union of `type` and `pcr` in a `ktap_val_t`. -/
inductive Tag (π : Type) where
  /-- `KTAP_TFUNC` -/
  | func
  /-- `KTAP_TCFUNC` -/
  | cfunc
  | nil
  /-- any other type -/
  | data
  /-- the instruction to return to; `none` is a null pointer -/
  | pcr (pc : Option (Pc π))
  deriving DecidableEq, Repr

/-- A `ktap_val_t`: the prototype of the function that `val` points to, if that is one, and the
type. -/
structure Cell (π : Type) where
  val : Option π
  tag : Tag π
  /-- `set_func` sets both fields -/
  isSome_of_func : tag = .func → val.isSome

/-- `set_func(o, fn)`. -/
def Cell.func {π : Type} (p : π) : Cell π := ⟨some p, .func, fun _ => rfl⟩

def Cell.data {π : Type} : Cell π := ⟨none, .data, nofun⟩

/-- `set_nil(o)`: only the type is set. -/
def Cell.setNil {π : Type} (o : Cell π) : Cell π := ⟨o.val, .nil, nofun⟩

/-- `o->pcr = pc`. -/
def Cell.setPcr {π : Type} (o : Cell π) (pc : Option (Pc π)) : Cell π := ⟨o.val, .pcr pc, nofun⟩

/-- `o->val = fn`. -/
def Cell.setVal {π : Type} (o : Cell π) (p : π) : Cell π := ⟨some p, o.tag, fun _ => rfl⟩

abbrev Stack (π : Type) : Type := ℕ → Cell π

/-- The instructions of the prototypes; `setbc_op` patches them. -/
abbrev Code (π : Type) : Type := π → ℕ → Instr

def Program.code {π : Type} (P : Program π) : Code π := fun p k => fetch (P p).bc k

def Code.get {π : Type} (C : Code π) (q : Pc π) : Instr := C q.proto q.ix

/-- How the loop ends. -/
inductive Stop where
  /-- the function that `kp_vm_call` was called for returns -/
  | returned
  /-- a case that only leaves the loop -/
  | unsupported
  /-- an instruction reports an error -/
  | failed
  /-- a C function reports an error -/
  | cfunctionFailed
  /-- "stack overflow, please enlarge stack size" -/
  | stackOverflow
  /-- "attempt to call nil function" -/
  | callNil
  /-- "don't support callt for C function" -/
  | calltCFunction
  /-- "loop execute count exceed max limit" -/
  | loopLimit
  /-- a cell that holds no function or no return address is used as one -/
  | wild
  deriving DecidableEq, Repr

/-- The variables of `kp_vm_call`, with `ks->top` and the stack. -/
structure Machine (π : Type) where
  stack : Stack π
  code : Code π
  func : ℕ
  base : ℕ
  top : ℕ
  fn : π
  pt : π
  pc : Pc π
  multres : ℕ
  /-- `loop_count`, an `int` -/
  loopCount : BitVec 32

/-- What an instruction and a C function compute. -/
structure Answer (π : Type) where
  fails : Bool
  /-- the outcome of a test, of the check of `ISNEXT` and of the end of a loop -/
  taken : Bool
  /-- the values that the instruction stores in cells of the stack -/
  stores : List (ℕ × Cell π)
  /-- what a C function pushes -/
  results : List (Cell π)

section machine

variable {π : Type} [DecidableEq π]

/-- `setbc_op(pc, op)`. -/
def Code.setOp (C : Code π) (q : Pc π) (op : Opcode) : Code π :=
  fun p k => if p = q.proto ∧ k = q.ix then { C p k with op := op } else C p k

section

omit [DecidableEq π]

def Stack.write (σ : Stack π) : List (ℕ × Cell π) → Stack π
  | [] => σ
  | w :: ws => Stack.write (Function.update σ w.1 w.2) ws

/-- `set_nil` on `n` cells from `at` on. -/
def Stack.fillNil (σ : Stack π) (start n : ℕ) : Stack π :=
  fun c => if start ≤ c ∧ c < start + n then (σ c).setNil else σ c

/-- The loop of `adjust_varargs`: each fixed parameter is moved up and its old cell set to nil. -/
def Stack.adjustVarargs (σ : Stack π) (fixed top : ℕ) : ℕ → Stack π
  | 0 => σ
  | n + 1 =>
    let σ' := Function.update σ top (σ fixed)
    Stack.adjustVarargs (Function.update σ' fixed (σ' fixed).setNil) (fixed + 1) (top + 1) n

/-- `poscall(ks, func, first_result, wanted)` with `n` results below the top. -/
def Stack.poscall (σ : Stack π) (func first : ℕ) : ℕ → ℤ → Stack π
  | 0, i => σ.fillNil func i.toNat
  | n + 1, i =>
    if i = 0 then σ
    else Stack.poscall (Function.update σ func (σ first)) (func + 1) (first + 1) n (i - 1)

/-- The loop of `CALLT` that moves the arguments down. -/
def Stack.moveArgs (σ : Stack π) (ofunc nfunc : ℕ) : ℕ → Stack π
  | 0 => σ
  | n + 1 =>
    Stack.moveArgs (Function.update σ (ofunc + 1) (σ (nfunc + 1))) (ofunc + 1) (nfunc + 1) n

/-- What a C function pushes from `top` on. -/
def Stack.push (σ : Stack π) (top : ℕ) : List (Cell π) → Stack π
  | [] => σ
  | v :: vs => Stack.push (Function.update σ top v) (top + 1) vs

end

namespace Machine

omit [DecidableEq π]

def instr (s : Machine π) : Instr := s.code.get s.pc

/-- `RA`. -/
def ra (s : Machine π) : ℕ := s.base + s.instr.a

/-- The pointer to the instruction at `k` of the same function. -/
def goto (s : Machine π) (k : ℕ) : Pc π := ⟨s.pc.proto, k⟩

/-- `pc++`: the instruction after the one dispatched. -/
def next (s : Machine π) : Pc π := s.goto (s.pc.ix + 1)

/-- `dojump(instr, 0)`. -/
def dojump (s : Machine π) : Pc π := s.goto (s.instr.target s.pc.ix)

/-- `donextjump`: the jump at the instruction after the one dispatched. -/
def donextjump (s : Machine π) : Pc π :=
  s.goto ((s.code.get s.next).target (s.pc.ix + 1))

/-- The top that `CALL` and `CALLM` set: the end of the arguments. -/
def argTop (s : Machine π) : ℕ :=
  if s.instr.op = .call ∧ s.instr.c ≠ 0 then s.ra + s.instr.c
  else if s.instr.op = .callm then s.ra + s.instr.c + s.multres
  else s.top

end Machine

variable (P : Program π) (last : ℕ) (maxLoop : BitVec 32)

/-- `checkstack(ks, n)` passes. -/
def Checkstack (last top n : ℕ) : Prop := top + n < last

instance (last top n : ℕ) : Decidable (Checkstack last top n) := by
  unfold Checkstack
  infer_instance

section calls

omit [DecidableEq π]

def completeTop (p : π) (func top : ℕ) : ℕ := max top (func + 1 + (P p).numparams)

/-- The base of a called function: behind its arguments when they are variable. -/
def callBase (p : π) (func top : ℕ) : ℕ :=
  if (P p).vararg then completeTop P p func top else func + 1

def callStack (σ : Stack π) (p : π) (func top : ℕ) : Stack π :=
  let σ' := σ.fillNil top (func + 1 + (P p).numparams - top)
  if (P p).vararg then
    σ'.adjustVarargs (func + 1) (completeTop P p func top) (P p).numparams
  else σ'

/-- `CALL` and `CALLM` of a ktap function. -/
def callFunc (s : Machine π) (p : π) : Except Stop (Machine π) :=
  if Checkstack last s.argTop (P p).framesize then
    let σ := callStack P s.stack p s.ra s.argTop
    let base := callBase P p s.ra s.argTop
    .ok { s with
      stack := Function.update σ s.ra ((σ s.ra).setPcr (some s.pc))
      func := s.ra
      base := base
      top := base + (P p).framesize
      fn := p
      pt := p
      pc := ⟨p, 1⟩ }
  else .error .stackOverflow

/-- `CALL` and `CALLM` of a C function. -/
def callC (s : Machine π) (a : Answer π) : Except Stop (Machine π) :=
  if Checkstack last s.argTop ktapMinReservedStackSize then
    if a.fails then .error .cfunctionFailed
    else .ok { s with
      stack := (s.stack.push s.argTop a.results).poscall s.ra s.argTop a.results.length
        (s.instr.b - 1)
      multres := a.results.length + 1
      pc := s.next }
  else .error .stackOverflow

/-- `CALLT` of a ktap function: its frame takes the place of the caller's. -/
def callT (s : Machine π) (p : π) : Machine π :=
  let σ : Stack π := Function.update s.stack s.func ((s.stack s.func).setVal p)
  { s with
    stack := σ.moveArgs s.func s.ra (P p).numparams
    top := s.base + (P p).framesize
    fn := p
    pt := p
    pc := ⟨p, 1⟩ }

/-- The end of `RET0` and `RET1`: the caller's frame is restored, with the stack that is given. -/
def doReturn (s : Machine π) (q : Pc π) (σ : Stack π) : Except Stop (Machine π) :=
  let a := (s.code.get q).a
  if a + 1 ≤ s.func then
    match (σ (s.func - a - 1)).val with
    | some p => .ok { s with
        stack := σ
        func := s.func - a - 1
        base := s.func - a
        top := s.func - a + (P s.pt).framesize
        fn := p
        pc := ⟨q.proto, q.ix + 1⟩
        multres := s.instr.d }
    | none => .error .wild
  else .error .wild

/-- `RET0` and `RET1`, which change one cell: to the caller, or out of the loop. -/
def ret (s : Machine π) (c : ℕ) (v : Cell π) : Except Stop (Machine π) :=
  match (s.stack s.func).tag with
  | .pcr none => .error .returned
  | .pcr (some q) => doReturn P s q (Function.update s.stack c v)
  | _ => .error .wild

/-- `check_hot_loop(ks, loop_count++)`, after which the loop goes on in the state that is given. -/
def hotLoop (s s' : Machine π) : Except Stop (Machine π) :=
  if s.loopCount = maxLoop then .error .loopLimit
  else .ok { s' with loopCount := s.loopCount + 1 }

end calls

def dispatch (s : Machine π) (a : Answer π) : Except Stop (Machine π) :=
  let i := s.instr
  match i.op.kind with
  | .store =>
    if a.fails then .error .failed
    else .ok { s with stack := s.stack.write a.stores, pc := s.next }
  | .test =>
    if a.fails then .error .failed
    else if a.taken then .ok { s with stack := s.stack.write a.stores, pc := s.donextjump }
    else .ok { s with pc := s.goto (s.pc.ix + 2) }
  | .jump => .ok { s with pc := s.dojump }
  | .call =>
    match (s.stack s.ra).tag with
    | .cfunc => callC last s a
    | .func =>
      match (s.stack s.ra).val with
      | some p => callFunc P last s p
      | none => .error .wild
    | _ => .error .callNil
  | .callt =>
    match (s.stack s.ra).tag with
    | .cfunc => .error .calltCFunction
    | .func =>
      match (s.stack s.ra).val with
      | some p => .ok (callT P s p)
      | none => .error .wild
    | _ => .error .callNil
  | .itern =>
    if a.taken then
      hotLoop maxLoop s { s with stack := s.stack.write a.stores, pc := s.donextjump }
    else hotLoop maxLoop s { s with pc := s.goto (s.pc.ix + 2) }
  | .isnext =>
    if a.taken then .ok { s with stack := s.stack.fillNil s.ra 1, pc := s.dojump }
    else .ok { s with
      -- despecialized: the iteration runs into `ITERC` from now on
      code := (s.code.setOp s.pc .jmp).setOp s.dojump .iterc
      pc := s.dojump }
  | .ret0 => ret P s s.func (s.stack s.func).setNil
  | .ret1 => ret P s (s.base - 1) (s.stack s.ra)
  | .fori =>
    if a.fails then .error .failed
    else if a.taken then .ok { s with stack := s.stack.write a.stores, pc := s.next }
    else .ok { s with pc := s.dojump }
  | .forl =>
    if a.taken then hotLoop maxLoop s { s with stack := s.stack.write a.stores, pc := s.dojump }
    else hotLoop maxLoop s { s with pc := s.next }
  | .loop => hotLoop maxLoop s { s with pc := s.next }
  | .leave => .error .unsupported

/-- The entry of `kp_vm_call` for the function at `func`, an instance of `main`. -/
def enter (σ : Stack π) (func : ℕ) (main : π) : Machine π where
  stack := Function.update σ func ((Cell.func main).setPcr none)
  code := P.code
  func := func
  base := func + 1
  top := func + 1 + (P main).framesize
  fn := main
  pt := main
  pc := ⟨main, 1⟩
  multres := 0
  loopCount := 0

/-- The cells of the functions that are being executed, from the innermost one at `f` outwards. -/
inductive Caller (C : Code π) (σ : Stack π) : ℕ → ℕ → Prop where
  | self (f : ℕ) : Caller C σ f f
  | up {f c : ℕ} {q : Pc π} : (σ f).tag = .pcr (some q) →
    Caller C σ (f - (C.get q).a - 1) c → Caller C σ f c

/-- What may happen at a round: an instruction stores in the registers that it names, or through
an upvalue, which is never the cell of a function being executed; and a C function pushes no more
than the part of the stack that is reserved for it. -/
structure Allowed (s : Machine π) (a : Answer π) : Prop where
  stores : ∀ w ∈ a.stores, (∃ r ∈ s.instr.writes, w.1 = s.base + r) ∨
    (s.instr.op.setsUpval = true ∧ ¬ Caller s.code s.stack s.func w.1)
  results : a.results.length ≤ ktapMinReservedStackSize

/-- A run of `kp_vm_call`. -/
def vm (σ : Stack π) (func : ℕ) (main : π) : Lib.System (Machine π) (Answer π) Stop where
  init := enter P σ func main
  Allowed := Allowed
  step := dispatch P last maxLoop

end machine

end Ktap.Vm
