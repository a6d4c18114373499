import ReadingComment.Lib.Linked
import ReadingComment.Lib.Run

/-!
# Upvalues (`runtime/kp_vm.c`, `runtime/kp_obj.c`)

While a captured variable is in its slot of the stack its upvalue is open: `v` points to the slot.
The open upvalues are in the list `openupval` of the thread, linked by the header of all objects,
and in the ring around `uvhead`, linked by the union that will hold the value. When the slot goes
out of scope the upvalue is closed: it takes the value over, and the header links it into `allgc`.

Objects are at addresses in `ℕ`. A pointer to a cell of a list is an `Option ℕ`, as in `Lib.Linked`:
`none` is `&ks->openupval`, or `&g->uvhead`. Slots are indexes into `ks->stack`.
-/

namespace Ktap.Vm

/-- What the functions can do that they must not. -/
inductive UvFault where
  /-- what is at an address is not read as what it is -/
  | wild
  /-- a list that does not end -/
  | runaway
  deriving DecidableEq, Repr

/-- `uv->v`. -/
inductive ValPtr where
  | slot (c : ℕ)
  /-- `&uv->tv` of the upvalue itself -/
  | own
  deriving DecidableEq, Repr

/-- The union of a `ktap_upval_t`. -/
inductive UvBody (ν : Type) where
  /-- `tv` -/
  | tv (x : ν)
  /-- `prev` and `next` -/
  | links (prev next : Option ℕ)
  deriving DecidableEq, Repr

/-- A `ktap_upval_t`, without its header. -/
structure Upval (ν : Type) where
  closed : Bool
  /-- not set by `findupval` -/
  immutable : Option Bool
  body : UvBody ν
  v : ValPtr
  deriving DecidableEq, Repr

/-- `uv->prev`. -/
def UvBody.prev {ν : Type} : UvBody ν → Option ℕ
  | .links p _ => p
  | .tv _ => none

/-- `uv->next`. -/
def UvBody.next {ν : Type} : UvBody ν → Option ℕ
  | .links _ n => n
  | .tv _ => none

/-- An object, without its header. -/
inductive Obj (ν : Type) where
  | upval (uv : Upval ν)
  /-- a function with its `upvals` -/
  | func (upvals : List ℕ)
  | other
  deriving DecidableEq, Repr

/-- The fields of the thread and of the global state that the functions use, and memory. -/
structure UvState (ν : Type) where
  stack : ℕ → ν
  /-- the header of an object -/
  nextgc : ℕ → Option ℕ
  obj : ℕ → Option (Obj ν)
  openupval : Option ℕ
  /-- `g->uvhead.prev` -/
  headPrev : Option ℕ
  /-- `g->uvhead.next` -/
  headNext : Option ℕ
  allgc : Option ℕ

namespace UvState

variable {ν : Type}

def new (stack : ℕ → ν) : UvState ν where
  stack := stack
  nextgc := fun _ => none
  obj := fun _ => none
  openupval := none
  headPrev := none
  headNext := none
  allgc := none

def upval (s : UvState ν) (a : ℕ) : Option (Upval ν) :=
  match s.obj a with
  | some (.upval uv) => some uv
  | _ => none

def upvals (s : UvState ν) (fn : ℕ) : Option (List ℕ) :=
  match s.obj fn with
  | some (.func us) => some us
  | _ => none

def setObj (s : UvState ν) (a : ℕ) (o : Obj ν) : UvState ν :=
  { s with obj := Function.update s.obj a (some o) }

/-! ## Cells of the lists -/

/-- `*pp` for a pointer to a cell of the list of open upvalues. -/
def openLink (s : UvState ν) : Option ℕ → Option ℕ
  | none => s.openupval
  | some a => s.nextgc a

/-- `*pp = q`. -/
def setOpenLink (s : UvState ν) (pp q : Option ℕ) : UvState ν :=
  match pp with
  | none => { s with openupval := q }
  | some a => { s with nextgc := Function.update s.nextgc a q }

/-- `p->next` around the ring. -/
def uvNext (s : UvState ν) : Option ℕ → Option ℕ
  | none => s.headNext
  | some a => (s.upval a).bind fun uv => uv.body.next

/-- `p->prev` around the ring. -/
def uvPrev (s : UvState ν) : Option ℕ → Option ℕ
  | none => s.headPrev
  | some a => (s.upval a).bind fun uv => uv.body.prev

/-- `p->next = q`. -/
def setNext (s : UvState ν) (p q : Option ℕ) : Except UvFault (UvState ν) :=
  match p with
  | none => .ok { s with headNext := q }
  | some a =>
    match s.upval a with
    | some uv =>
      match uv.body with
      | .links prev _ =>
        .ok (s.setObj a (.upval { uv with body := .links prev q }))
      | .tv _ => .error .wild
    | none => .error .wild

/-- `p->prev = q`. -/
def setPrev (s : UvState ν) (p q : Option ℕ) : Except UvFault (UvState ν) :=
  match p with
  | none => .ok { s with headPrev := q }
  | some a =>
    match s.upval a with
    | some uv =>
      match uv.body with
      | .links _ next =>
        .ok (s.setObj a (.upval { uv with body := .links q next }))
      | .tv _ => .error .wild
    | none => .error .wild

/-- `*uv->v`. -/
def deref (s : UvState ν) (uv : Upval ν) : Except UvFault ν :=
  match uv.v with
  | .slot c => .ok (s.stack c)
  | .own =>
    match uv.body with
    | .tv x => .ok x
    | .links _ _ => .error .wild

/-! ## The functions -/

/-- What the loop of `findupval` ends with. -/
inductive Spot where
  /-- "found a corresponding upvalue" -/
  | found (p : ℕ)
  /-- not found: the cell before which it stops -/
  | before (pp : Option ℕ)
  deriving DecidableEq, Repr

/-- The loop of `findupval`. -/
def findSpot (s : UvState ν) (slot : ℕ) : ℕ → Option ℕ → Except UvFault Spot
  | 0, _ => .error .runaway
  | fuel + 1, pp =>
    match s.openLink pp with
    | none => .ok (.before pp)
    | some p =>
      match s.upval p with
      | some uv =>
        match uv.v with
        | .slot c =>
          if slot ≤ c then
            if c = slot then .ok (.found p) else findSpot s slot fuel (some p)
          else .ok (.before pp)
        | .own => .error .wild
      | none => .error .wild

/-- "create a new one", at the address that `kp_malloc` gives. -/
def newUpval (s : UvState ν) (slot : ℕ) (pp : Option ℕ) (uv : ℕ) :
    Except UvFault (UvState ν) := do
  let s := s.setObj uv (.upval ⟨false, none, .links none s.headNext, .slot slot⟩)
  -- "Insert into sorted list of open upvalues."
  let s := s.setOpenLink (some uv) (s.openLink pp)
  let s := s.setOpenLink pp (some uv)
  -- "double link it in `uvhead' list"
  let s ← s.setPrev s.headNext (some uv)
  s.setNext none (some uv)

/-- `findupval(ks, slot)`; `grant` is what `kp_malloc` answers. -/
def findupval (size : ℕ) (s : UvState ν) (slot : ℕ) (grant : Option ℕ) :
    Except UvFault (Option ℕ × UvState ν) := do
  match ← s.findSpot slot (size + 1) none with
  | .found p => .ok (some p, s)
  | .before pp =>
    match grant with
    | none => .ok (none, s)
    | some uv =>
      let s ← s.newUpval slot pp uv
      .ok (some uv, s)

/-- `unlinkupval(uv)`. -/
def unlinkupval (s : UvState ν) (a : ℕ) : Except UvFault (UvState ν) :=
  match s.upval a with
  | some uv =>
    match uv.body with
    | .links _ next => do
      let s ← s.setPrev next (s.uvPrev (some a))
      s.setNext (s.uvPrev (some a)) (s.uvNext (some a))
    | .tv _ => .error .wild
  | none => .error .wild

/-- `o->nextgc = g->allgc; g->allgc = o`. -/
def linkGc (s : UvState ν) (o : ℕ) : UvState ν :=
  { s with nextgc := Function.update s.nextgc o s.allgc, allgc := some o }

/-- The body of the loop of `func_closeuv`, for the first open upvalue. -/
def closeFirst (s : UvState ν) (a : ℕ) : Except UvFault (UvState ν) := do
  -- "remove from `open' list"
  let s ← (s.setOpenLink none (s.openLink (some a))).unlinkupval a
  match s.upval a with
  | some uv =>
    -- "move value to upvalue slot"
    let x ← s.deref uv
    let s := s.setObj a (.upval { uv with body := .tv x, v := .own, closed := true })
    -- "link upvalue into 'allgc' list"
    .ok (s.linkGc a)
  | none => .error .wild

/-- The loop of `func_closeuv`. -/
def closeAll (level : ℕ) : ℕ → UvState ν → Except UvFault (UvState ν)
  | 0, _ => .error .runaway
  | fuel + 1, s =>
    match s.openupval with
    | none => .ok s
    | some a =>
      match s.upval a with
      | some uv =>
        match uv.v with
        | .slot c => if level ≤ c then s.closeFirst a >>= closeAll level fuel else .ok s
        | .own => .error .wild
      | none => .error .wild

/-- `func_closeuv(ks, level)`. -/
def funcCloseuv (size : ℕ) (s : UvState ν) (level : ℕ) : Except UvFault (UvState ν) :=
  closeAll level (size + 1) s

/-- `PROTO_UV_IMMUTABLE`. -/
def protoUvImmutable : ℕ := 0x4000

/-- `v & PROTO_UV_LOCAL` for 16 bits `v`. -/
def isLocal (v : ℕ) : Bool := v.testBit 15

/-- `uv->immutable = b`. -/
def setImmutable (s : UvState ν) (a : ℕ) (b : Bool) : UvState ν :=
  match s.upval a with
  | some uv => s.setObj a (.upval { uv with immutable := some b })
  | none => s

/-- `fn->upvals[i] = uv`, for the next `i`. -/
def addUpval (s : UvState ν) (fn uv : ℕ) : UvState ν :=
  match s.upvals fn with
  | some us => s.setObj fn (.func (us ++ [uv]))
  | none => s

/-- The loop of `func_new` over `proto_uv(pt)`, with what `kp_malloc` would answer to each call
of `findupval`. -/
def fillUpvals (size fn parent base : ℕ) :
    List (ℕ × Option ℕ) → UvState ν → Except UvFault (Bool × UvState ν)
  | [], s => .ok (true, s)
  | (v, grant) :: vs, s =>
    if isLocal v then do
      let (r, s) ← s.findupval size (base + v % 256) grant
      match r with
      | none => .ok (false, s)
      | some uv =>
        let s := s.setImmutable uv (v / protoUvImmutable % 2 = 1)
        fillUpvals size fn parent base vs (s.addUpval fn uv)
    else
      match (s.upvals parent).bind fun us => us[v]? with
      | some uv => fillUpvals size fn parent base vs (s.addUpval fn uv)
      | none => .error .wild

/-- `kp_obj_new`: a new object, at the address that `kp_malloc` gives. -/
def objNew (s : UvState ν) (o : ℕ) (x : Obj ν) : UvState ν := (s.setObj o x).linkGc o

/-- `func_new(ks, pt, parent, base)`; `grant` is `none` also for a thread that is not the main one,
which must not make functions. -/
def funcNew (size : ℕ) (s : UvState ν) (vs : List (ℕ × Option ℕ)) (parent base : ℕ)
    (grant : Option ℕ) : Except UvFault (Option ℕ × UvState ν) :=
  match grant with
  | none => .ok (none, s)
  | some fn => do
    let (done, s) ← fillUpvals size fn parent base vs (s.objNew fn (.func []))
    .ok (if done then some fn else none, s)

/-- `USETV`: a store through an upvalue of a function. -/
def setUpval (s : UvState ν) (fn i : ℕ) (x : ν) : Except UvFault (UvState ν) :=
  match (s.upvals fn).bind fun us => us[i]? with
  | none => .error .wild
  | some a =>
    match s.upval a with
    | none => .error .wild
    | some uv =>
      match uv.v with
      | .slot c => .ok { s with stack := Function.update s.stack c x }
      | .own => .ok (s.setObj a (.upval { uv with body := .tv x }))

end UvState

/-! ## Runs -/

/-- What is called, with the answers of `kp_malloc`, and the stores between the calls. -/
inductive UvCall (ν : Type) where
  | findupval (slot : ℕ) (grant : Option ℕ)
  | funcNew (vs : List (ℕ × Option ℕ)) (parent base : ℕ) (grant : Option ℕ)
  | funcCloseuv (level : ℕ)
  /-- `kp_obj_new` for an object of another type -/
  | objNew (o : ℕ)
  /-- a store in a slot of the stack -/
  | store (c : ℕ) (x : ν)
  /-- `USETV` -/
  | setUpval (fn i : ℕ) (x : ν)

namespace UvState

variable {ν : Type}

/-- `kp_malloc` gives addresses where nothing is. -/
def Fresh (s : UvState ν) (grants : List ℕ) : Prop :=
  grants.Nodup ∧ ∀ a ∈ grants, s.obj a = none

/-- What a call relies on: slots are slots of the stack, and the compiler numbers the upvalues of a
function and those of its parent from 0. -/
def Allowed (size : ℕ) (s : UvState ν) : UvCall ν → Prop
  | .findupval slot grant => slot < size ∧ s.Fresh grant.toList
  | .funcNew vs parent base grant =>
    s.Fresh (grant.toList ++ vs.filterMap Prod.snd) ∧
      ∀ v ∈ vs.map Prod.fst, if isLocal v then base + v % 256 < size
        else ((s.upvals parent).bind fun us => us[v]?).isSome
  | .funcCloseuv _ => True
  | .objNew o => s.Fresh [o]
  | .store c _ => c < size
  | .setUpval fn i _ => ((s.upvals fn).bind fun us => us[i]?).isSome

instance (s : UvState ν) (grants : List ℕ) [DecidableEq ν] : Decidable (s.Fresh grants) := by
  unfold Fresh
  infer_instance

instance (size : ℕ) (s : UvState ν) (a : UvCall ν) [DecidableEq ν] :
    Decidable (s.Allowed size a) := by
  cases a <;> rw [Allowed] <;> infer_instance

def call (size : ℕ) (s : UvState ν) : UvCall ν → Except UvFault (UvState ν)
  | .findupval slot grant => (s.findupval size slot grant).map Prod.snd
  | .funcNew vs parent base grant => (s.funcNew size vs parent base grant).map Prod.snd
  | .funcCloseuv level => s.funcCloseuv size level
  | .objNew o => .ok (s.objNew o .other)
  | .store c x => .ok { s with stack := Function.update s.stack c x }
  | .setUpval fn i x => s.setUpval fn i x

end UvState

def upvalues {ν : Type} (size : ℕ) (stack : ℕ → ν) :
    Lib.System (UvState ν) (UvCall ν) UvFault where
  init := .new stack
  Allowed := UvState.Allowed size
  step := UvState.call size

instance {ν : Type} [DecidableEq ν] (size : ℕ) (stack : ℕ → ν) (s : UvState ν) (a : UvCall ν) :
    Decidable ((upvalues size stack).Allowed s a) :=
  inferInstanceAs (Decidable (s.Allowed size a))

end Ktap.Vm
