import ReadingComment.Ktap.Machine

/-!
# Numeric `for` loops (`userspace/kp_parse.c`, `runtime/kp_vm.c`)

A loop has four registers from `base` on: the counter, the limit and the step, which no program can
name, and a copy of the counter, the variable of the program. `FORI` stands before the block and
decides whether it is entered; `FORL` stands behind it, adds the step and decides whether it is
entered again.

`FORI` and `FORL` are computed; what another instruction of the block computes, where it goes on and
how often the loops of a function that it calls are checked is left open, but for the registers that
it does not touch.
-/

namespace Ktap.Vm

/-! ## What is compiled -/

/-- `FORL_IDX`. -/
def forlIdx : ℕ := 0

/-- `FORL_STOP`. -/
def forlStop : ℕ := 1

/-- `FORL_STEP`. -/
def forlStep : ℕ := 2

/-- `FORL_EXT`. -/
def forlExt : ℕ := 3

/-- `jmp_patchins(fs, pc, dest)`; `none` is the error `KP_ERR_XJUMP`. -/
def jmpPatchins (jmp : Instr) (pc dest : ℕ) : Option Instr :=
  let offset := jumpOffset pc dest
  if bcmaxD < offset then none else some { jmp with d := offset }

/-- The registers that an instruction may change. It stores in those that it names; a function that
it calls has its frame from `A` on, and stores in captured variables. -/
def Instr.Touches (captured : ℕ → Bool) (i : Instr) (r : ℕ) : Prop :=
  r ∈ i.writes ∨ i.op.kind = .call ∧ i.a ≤ r ∨
    (i.op.kind = .call ∨ i.op.setsUpval = true) ∧ captured r = true

instance (captured : ℕ → Bool) (i : Instr) (r : ℕ) : Decidable (i.Touches captured r) := by
  unfold Instr.Touches
  infer_instance

/-- A loop as `parse_for_num` finds it. Where the code of the block may store is a promise of the
expressions and statements in it, which are not modelled here. -/
structure NumericFor where
  /-- `fs->freereg` at its beginning -/
  base : ℕ
  /-- `fs->pc` at its beginning -/
  start : ℕ
  init : List Instr
  limit : List Instr
  step : Option (List Instr)
  block : List Instr
  /-- the registers that functions capture -/
  captured : ℕ → Bool
  /-- the control variables have no names, and no code of the block finds their registers -/
  spares : ∀ i ∈ block, ∀ r, i.Touches captured r → r < base ∨ base + forlExt ≤ r
  /-- `jmp_patchins` accepts the length of the block -/
  fits : block.length + 1 + bcbiasJ ≤ bcmaxD

namespace NumericFor

variable (L : NumericFor)

/-- The code before the loop: the three expressions; "Default step is 1". -/
def head : List Instr :=
  L.init ++ L.limit ++ L.step.getD [⟨.kshort, L.base + forlStep, 1⟩]

/-- The place of `FORI`. -/
def loop : ℕ := L.start + L.head.length

/-- The place of `FORL`. -/
def loopend : ℕ := L.loop + 1 + L.block.length

/-- The code that `parse_for_num` emits. -/
def emit : Option (List Instr) := do
  let forl ← jmpPatchins ⟨.forl, L.base, 0⟩ L.loopend (L.loop + 1)
  let fori ← jmpPatchins ⟨.fori, L.base, 0⟩ L.loop (L.loopend + 1)
  return L.head ++ fori :: L.block ++ [forl]

def instr (pc : ℕ) : Instr := fetch (L.emit.getD []) (pc - L.start)

end NumericFor

/-! ## What is executed -/

section machine

variable {σ : Type}

/-- The registers of the function that has the loop, with a record of the variable of the loop at
each entry of the block. -/
structure LoopState (σ : Type) where
  pc : ℕ
  regs : Regs σ
  /-- `loop_count` -/
  loopCount : BitVec 32
  entries : List (Val σ)

/-- What an instruction of the block other than `FORI` and `FORL` does. -/
structure Effect (σ : Type) where
  /-- what it leaves in the registers that it touches -/
  vals : Regs σ
  /-- where the dispatch loop goes on -/
  pc : ℕ
  /-- how often `check_hot_loop` is called -/
  checks : ℕ
  /-- `kp_vm_call` is left -/
  stop : Option Stop

/-- Where a round leads to. -/
inductive Outcome (σ : Type) where
  /-- to a place of the block, or to `FORL` -/
  | running (s : LoopState σ)
  /-- past the loop, from `FORI` or `FORL` -/
  | done (s : LoopState σ)
  /-- out of the block, as by `break` -/
  | left (s : LoopState σ)
  | stopped (e : Stop) (s : LoopState σ)

def Outcome.state : Outcome σ → LoopState σ
  | .running s | .done s | .left s | .stopped _ s => s

/-- `NUMLT(0, step) ? NUMLE(idx, limit) : NUMLE(limit, idx)`. -/
def forTest (idx limit step : Number) : Bool :=
  if (0 : Number).slt step then idx.sle limit else limit.sle idx

/-- `check_hot_loop(ks, loop_count++)`, `n` times; `none` when a check fails. -/
def checkHotLoops (maxLoop : BitVec 32) : ℕ → BitVec 32 → Option (BitVec 32)
  | 0, c => some c
  | n + 1, c => if c = maxLoop then none else checkHotLoops maxLoop n (c + 1)

/-- `FORI`, but for the record. -/
def fori (i : Instr) (s : LoopState σ) : Except Stop (LoopState σ) :=
  match s.regs i.a, s.regs (i.a + 1), s.regs (i.a + 2) with
  | .num idx, .num limit, .num step =>
    if forTest idx limit step then
      .ok { s with pc := s.pc + 1, regs := Function.update s.regs (i.a + 3) (.num idx) }
    else .ok { s with pc := i.target s.pc }
  -- "init/limit/step value must be a number"
  | _, _, _ => .error .failed

/-- `FORL` before its check, but for the record; the types are not checked again. -/
def forl (i : Instr) (s : LoopState σ) : Except Stop (LoopState σ) :=
  match s.regs i.a, s.regs (i.a + 1), s.regs (i.a + 2) with
  | .num n, .num limit, .num step =>
    -- "increment index"
    let idx := n + step
    if forTest idx limit step then
      .ok { s with
        pc := i.target s.pc
        -- "update internal index... ...and external index"
        regs := Function.update (Function.update s.regs i.a (.num idx)) (i.a + 3) (.num idx) }
    else .ok { s with pc := s.pc + 1 }
  | _, _, _ => .error .wild

namespace NumericFor

variable (L : NumericFor)

/-- The record of a round of the loop's own `FORI` or `FORL`. -/
def enter (pc : ℕ) (s : LoopState σ) : LoopState σ :=
  if (pc = L.loop ∨ pc = L.loopend) ∧ s.pc = L.loop + 1 then
    { s with entries := s.entries ++ [s.regs (L.base + forlExt)] }
  else s

/-- Where the state after a round at `pc` is. -/
def settle (pc : ℕ) (s : LoopState σ) : Outcome σ :=
  if L.loop < s.pc ∧ s.pc ≤ L.loopend then .running s
  else if pc = L.loop ∨ pc = L.loopend then .done s
  else .left s

def round (maxLoop : BitVec 32) (s : LoopState σ) (e : Effect σ) : Outcome σ :=
  let i := L.instr s.pc
  if i.op = .fori then
    match fori i s with
    | .ok s' => L.settle s.pc (L.enter s.pc s')
    | .error x => .stopped x s
  else if i.op = .forl then
    match forl i s with
    | .ok s' =>
      match checkHotLoops maxLoop 1 s.loopCount with
      | some c => L.settle s.pc (L.enter s.pc { s' with loopCount := c })
      | none => .stopped .loopLimit s'
    | .error x => .stopped x s
  else
    match e.stop with
    | some x => .stopped x s
    | none =>
      match checkHotLoops maxLoop e.checks s.loopCount with
      | some c => L.settle s.pc { s with
          pc := e.pc
          regs := fun r => if i.Touches L.captured r then e.vals r else s.regs r
          loopCount := c }
      | none => .stopped .loopLimit s

/-- What the rounds from a state lead to. -/
inductive Runs (maxLoop : BitVec 32) (s₀ : LoopState σ) : Outcome σ → Prop where
  | start : Runs maxLoop s₀ (.running s₀)
  | round {s : LoopState σ} (e : Effect σ) : Runs maxLoop s₀ (.running s) →
    Runs maxLoop s₀ (L.round maxLoop s e)

/-- The state before `FORI`. -/
structure Starts (s : LoopState σ) (count : BitVec 32) (init limit step : Number) : Prop where
  pc : s.pc = L.loop
  idx : s.regs (L.base + forlIdx) = .num init
  limit : s.regs (L.base + forlStop) = .num limit
  step : s.regs (L.base + forlStep) = .num step
  loopCount : s.loopCount = count
  entries : s.entries = []

end NumericFor

end machine

end Ktap.Vm
