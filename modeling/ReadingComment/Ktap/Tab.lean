import ReadingComment.Ktap.Value

/-!
# Kernel tables (`runtime/kp_tab.c`)

A table has an array part for the keys `0 .. asize-1` and a hash part: one node array, in which
colliding keys are chained through the nodes themselves, with Brent's variation on insertion. Nodes
are named by their index, `next` is the chain link, `freetop` the position below which a free node
is searched, and a slot what the source returns as a `ktap_val_t *`.

An access outside the node array and following a null link are a `Fault`; a chain walk that needs
more steps than there are nodes is the fault `diverge`. Allocations succeed.
-/

namespace Ktap

/-- What cannot happen in a table that is intact. -/
inductive Fault where
  /-- a node or an array slot that does not exist is accessed -/
  | badAccess
  /-- a null chain link is followed -/
  | nullDeref
  /-- a chain walk does not end -/
  | diverge
  deriving DecidableEq, Repr

/-- The messages table operations hand to `kp_error`. -/
inductive TabErr where
  | overflow
  | nilIndex
  | eventContext
  | incrNonNumber
  deriving DecidableEq, Repr

def TabErr.text : TabErr → String
  | .overflow => "table overflow\n"
  | .nilIndex => "table nil index\n"
  | .eventContext => "cannot stringify event str in invalid context\n"
  | .incrNonNumber => "use '+=' operator on non-number value\n"

/-- `KP_MAX_HBITS`. -/
def kpMaxHbits : ℕ := 26

/-- `KP_MAX_ASIZE`, with `KP_MAX_ABITS` 28. -/
def kpMaxAsize : ℕ := 2 ^ 27 + 1

/-- A `ktap_node_t`. -/
structure Node (σ : Type) where
  /-- value object -/
  val : Val σ
  /-- key object -/
  key : Val σ
  /-- hash chain -/
  next : Option ℕ
  deriving DecidableEq, Repr

def Node.empty {σ : Type} : Node σ := ⟨.nil, .nil, none⟩

/-- A `ktap_tab_t`; `asize` is the length of the array part. -/
structure Tab (σ : Type) where
  /-- array part -/
  array : List (Val σ)
  /-- hash part -/
  node : List (Node σ)
  /-- any free position is before this position -/
  freetop : ℕ
  /-- mask of the node index -/
  hmask : BitVec 32
  /-- number of all nodes -/
  hnum : BitVec 32
  deriving DecidableEq, Repr

/-- Where a value of the table lives. -/
inductive Slot where
  | array (i : ℕ)
  | node (i : ℕ)
  deriving DecidableEq, Repr

/-- What table operations read of the interpreter state: the string of the current event
(`none` outside an event, `some none` when it cannot be made) and the string of a kernel
stack. -/
structure KState (σ : Type) where
  eventStringify : Option (Option σ)
  kpObjKstack2str : BitVec 16 → BitVec 16 → Option σ

namespace Tab

variable {σ : Type}

/-- `t->asize`. -/
abbrev asize (t : Tab σ) : ℕ := t.array.length

def nodeAt (t : Tab σ) (i : ℕ) : Except Fault (Node σ) :=
  match t.node[i]? with
  | some n => .ok n
  | none => .error .badAccess

def setNode (t : Tab σ) (i : ℕ) (n : Node σ) : Tab σ := { t with node := t.node.set i n }

def load (t : Tab σ) : Slot → Except Fault (Val σ)
  | .array i =>
    match t.array[i]? with
    | some v => .ok v
    | none => .error .badAccess
  | .node i => do
    let n ← t.nodeAt i
    return n.val

/-- Write through a slot (`set_obj(v, val)`). -/
def store (t : Tab σ) (v : Val σ) : Slot → Except Fault (Tab σ)
  | .array i =>
    if i < t.array.length then .ok { t with array := t.array.set i v } else .error .badAccess
  | .node i => do
    let n ← t.nodeAt i
    return t.setNode i { n with val := v }

end Tab

/-! ## Object hashing -/

/-- `HASH_BIAS`. -/
def hashBias : BitVec 32 := BitVec.ofInt 32 (-0x04c11db7)

/-- `hashrot(lo, hi)`: scramble the bits of numbers and pointers. -/
def hashrot (lo hi : BitVec 32) : BitVec 32 :=
  let lo := lo ^^^ hi
  let hi := hi.rotateLeft 14
  let lo := lo - hi
  let hi := hi.rotateLeft 5
  let hi := hi ^^^ lo
  hi - lo.rotateLeft 13

section model

variable {σ : Type} [DecidableEq σ] [StrObj σ]

/-- `hashmask(t, hash)`. -/
def hashmask (t : Tab σ) (hash : BitVec 32) : ℕ := (hash &&& t.hmask).toNat

/-- `hashstr(t, s)`. -/
def hashstr (t : Tab σ) (s : σ) : ℕ := hashmask t (StrObj.hash s)

/-- `hashnum(t, o)`. -/
def hashnum (t : Tab σ) (n : Number) : ℕ := hashmask t (hashrot (n.setWidth 32) 0)

/-- `hashgcref(t, o)`. -/
def hashgcref (t : Tab σ) (gc : BitVec 64) : ℕ :=
  hashmask t (hashrot (gc.setWidth 32) (gc.setWidth 32 + hashBias))

/-- `hashkey(t, key)`: the anchor position of a key. A nil key, an event string and a kernel
stack fall through to `hashgcref` of whatever the union holds. -/
def hashkey (t : Tab σ) : Val σ → ℕ
  | .str s => hashstr t s
  | .num n => hashnum t n
  | .bool b => hashmask t (if b then 1 else 0)
  | .obj _ gc => hashgcref t gc
  | .nil => hashgcref t 0
  | .eventstr _ => hashgcref t 0
  | .kstack d k r => hashgcref t (r ++ k ++ d : BitVec 64)

/-! ## Creation and clearing -/

/-- `clearhpart(t)`. -/
def clearhpart (t : Tab σ) : Tab σ :=
  { t with node := t.node.map fun _ => Node.empty, hnum := 0 }

/-- `clearapart(t)`. -/
def clearapart (t : Tab σ) : Tab σ :=
  { t with array := t.array.map fun _ => Val.nil }

/-- `newhpart(ks, t, hbits)`; the fresh nodes are uninitialised, here as `garbage` gives them. -/
def newhpart (garbage : ℕ → Node σ) (t : Tab σ) (hbits : ℕ) : Except TabErr (Tab σ) :=
  if hbits > kpMaxHbits then .error .overflow
  else
    let hsize := 2 ^ hbits
    .ok { t with
      freetop := hsize
      node := (List.range hsize).map garbage
      hmask := BitVec.ofNat 32 (hsize - 1) }

/-- `newtab(ks, asize, hbits)`; a table without hash part has no node at all. -/
def newtab (garbage : ℕ → Node σ) (garbageA : ℕ → Val σ) (asize hbits : ℕ) :
    Except TabErr (Tab σ) := do
  let t : Tab σ := ⟨[], [], 0, 0, 0⟩
  let t ←
    if asize > 0 then
      if asize > kpMaxAsize then .error .overflow
      else pure { t with array := (List.range asize).map garbageA }
    else pure t
  if hbits ≠ 0 then newhpart garbage t hbits else pure t

/-- `kp_tab_new(ks, asize, hbits)`: the allocated parts are cleared, whatever they held. -/
def kpTabNew (garbage : ℕ → Node σ) (garbageA : ℕ → Val σ) (asize hbits : ℕ) :
    Except TabErr (Tab σ) := do
  let t ← newtab garbage garbageA asize hbits
  let t := clearapart t
  if t.hmask.toNat > 0 then return clearhpart t else return t

/-- `kp_tab_clear(t)`. -/
def kpTabClear (t : Tab σ) : Tab σ :=
  let t := clearapart t
  if t.hmask.toNat > 0 then clearhpart { t with freetop := t.hmask.toNat + 1 } else t

/-! ## Getters -/

/-- The walk `do { if (match) return n; } while ((n = n->next))`. -/
def chainFind (t : Tab σ) (p : Val σ → Bool) : ℕ → ℕ → Except Fault (Option ℕ)
  | 0, _ => .error .diverge
  | fuel + 1, i => do
    let n ← t.nodeAt i
    if p n.key then return some i
    else
      match n.next with
      | none => return none
      | some j => chainFind t p fuel j

/-- A walk along a chain of `t`, with more steps than there are nodes. -/
def walk (t : Tab σ) (p : Val σ → Bool) (i : ℕ) : Except Fault (Option ℕ) :=
  chainFind t p (t.node.length + 1) i

/-- The value at the node a walk found, `niltv` when it found none. -/
def loadFound (t : Tab σ) : Option ℕ → Except Fault (Val σ)
  | some i => t.load (.node i)
  | none => .ok .nil

/-- `tab_getinth(t, key)`. -/
def tabGetinth (t : Tab σ) (key : BitVec 32) : Except Fault (Val σ) := do
  let k : Number := key.setWidth 64
  let r ← walk t (fun x => x.isNumber && decide (x = .num k)) (hashnum t k)
  loadFound t r

/-- `tab_getint(t, key)`. -/
def tabGetint (t : Tab σ) (key : BitVec 32) : Except Fault (Val σ) :=
  if key.toNat < t.asize then t.load (.array key.toNat) else tabGetinth t key

/-- `kp_tab_getint(t, key, val)`. -/
def kpTabGetint (t : Tab σ) (key : BitVec 32) : Except Fault (Val σ) := tabGetint t key

/-- `tab_getstr(t, key)`. -/
def tabGetstr (t : Tab σ) (key : σ) : Except Fault (Val σ) := do
  let r ← walk t (fun x => x.isString && decide (x = .str key)) (hashstr t key)
  loadFound t r

/-- `kp_tab_getstr(t, key, val)`. -/
def kpTabGetstr (t : Tab σ) (key : σ) : Except Fault (Val σ) := tabGetstr t key

/-- The label `genlookup` of `tab_get`. -/
def genlookup (t : Tab σ) (key : Val σ) : Except Fault (Val σ) := do
  let r ← walk t (fun x => kpObjEqual x key) (hashkey t key)
  loadFound t r

/-- `tab_get(ks, t, key)`, with the message it reports. An event string key is stringified, but
the lookup then goes through the key's own union, not through the string that was made. -/
def tabGet (ks : KState σ) (t : Tab σ) (key : Val σ) : Except Fault (Val σ × Option TabErr) :=
  match key with
  | .str s => return (← tabGetstr t s, none)
  | .num nk =>
    let k : BitVec 32 := nk.setWidth 32
    if nk = k.setWidth 64 then return (← tabGetint t k, none)
    else return (← genlookup t key, none)
  | .eventstr stale =>
    match ks.eventStringify with
    | none => return (.nil, some .eventContext)
    | some none => return (.nil, none)
    | some (some _) =>
      match stale with
      | some s => return (← tabGetstr t s, none)
      | none => .error .badAccess
  | .nil => return (.nil, none)
  | key => return (← genlookup t key, none)

/-- `kp_tab_get(ks, t, key, val)`. -/
def kpTabGet (ks : KState σ) (t : Tab σ) (key : Val σ) : Except Fault (Val σ × Option TabErr) :=
  tabGet ks t key

/-! ## Setters -/

/-- The search for a free node: step down from `freetop` to the first node with a nil key. -/
def findFree (t : Tab σ) : ℕ → Except Fault (Option ℕ)
  | 0 => return none
  | f + 1 => do
    let n ← t.nodeAt f
    if n.key.isNil then return some f else findFree t f

/-- `while (collide->next != n) collide = collide->next;`. -/
def findPred (t : Tab σ) (n : ℕ) : ℕ → ℕ → Except Fault ℕ
  | 0, _ => .error .diverge
  | fuel + 1, c => do
    let cn ← t.nodeAt c
    if cn.next = some n then return c
    else
      match cn.next with
      | none => .error .nullDeref
      | some c' => findPred t n fuel c'

/-- `while (freenode->next) { ... }`: take the string keys with a value that hash to the freed
main node `n` out of the chain and put them behind `n`. -/
def rechain (n : ℕ) : ℕ → Tab σ → ℕ → Except Fault (Tab σ)
  | 0, _, _ => .error .diverge
  | fuel + 1, t, freenode => do
    let fn ← t.nodeAt freenode
    match fn.next with
    | none => return t
    | some nn => do
      let nnode ← t.nodeAt nn
      match nnode.key with
      | .str s =>
        if !nnode.val.isNil && hashstr t s == n then do
          let t := t.setNode freenode { fn with next := nnode.next }
          let main ← t.nodeAt n
          let nnode ← t.nodeAt nn
          let t := t.setNode nn { nnode with next := main.next }
          let main ← t.nodeAt n
          rechain n fuel (t.setNode n { main with next := some nn }) freenode
        else rechain n fuel t nn
      | _ => rechain n fuel t nn

/-- `set_obj(&n->key, key); t->hnum++; return &n->val;`. -/
def placeKey (t : Tab σ) (key : Val σ) (n : ℕ) : Except Fault (Tab σ × Slot) := do
  let nd ← t.nodeAt n
  let t := t.setNode n { nd with key := key }
  return ({ t with hnum := t.hnum + 1 }, .node n)

/-- The branch of `kp_tab_newkey` that moves the colliding node `n`, whose key belongs to the
chain of `collide`, to `freenode`. -/
def moveColliding (t : Tab σ) (collide n freenode : ℕ) : Except Fault (Tab σ) := do
  let p ← findPred t n (t.node.length + 1) collide
  let pn ← t.nodeAt p
  let t := t.setNode p { pn with next := some freenode }
  let nd ← t.nodeAt n
  let t := t.setNode freenode { val := nd.val, key := nd.key, next := nd.next }
  let t := t.setNode n { nd with next := none, val := .nil }
  rechain n (t.node.length + 1) t freenode

/-- The branch of `kp_tab_newkey` that links `freenode` behind the main node `n`. -/
def insertChain (t : Tab σ) (n freenode : ℕ) : Except Fault (Tab σ) := do
  let nd ← t.nodeAt n
  let fn ← t.nodeAt freenode
  let t := t.setNode freenode { fn with next := nd.next }
  let nd ← t.nodeAt n
  return t.setNode n { nd with next := some freenode }

/-- `kp_tab_newkey(ks, t, key)`; the slot is `none` when the table overflows. -/
def kpTabNewkey (t : Tab σ) (key : Val σ) : Except Fault (Tab σ × Option Slot) := do
  let n := hashkey t key
  let nd ← t.nodeAt n
  if !nd.val.isNil || t.hmask.toNat == 0 then
    match ← findFree t t.freetop with
    | none => return (t, none)
    | some freenode => do
      let t := { t with freetop := freenode }
      let nd ← t.nodeAt n
      let collide := hashkey t nd.key
      if collide ≠ n then do
        let t ← moveColliding t collide n freenode
        let (t, s) ← placeKey t key n
        return (t, some s)
      else do
        let t ← insertChain t n freenode
        let (t, s) ← placeKey t key freenode
        return (t, some s)
  else do
    let (t, s) ← placeKey t key n
    return (t, some s)

/-- What a `tab_set*` returns: the table, the slot, and the message when there is no slot. -/
abbrev SetResult (σ : Type) : Type := Tab σ × Option Slot × Option TabErr

/-- Insert `key` when the walk found no node for it. -/
def foundOrNew (t : Tab σ) (key : Val σ) : Option ℕ → Except Fault (SetResult σ)
  | some i => return (t, some (.node i), none)
  | none => do
    match ← kpTabNewkey t key with
    | (t, some s) => return (t, some s, none)
    | (t, none) => return (t, none, some .overflow)

/-- `tab_setinth(ks, t, key)`. -/
def tabSetinth (t : Tab σ) (key : BitVec 32) : Except Fault (SetResult σ) := do
  let k : Number := key.setWidth 64
  let r ← walk t (fun x => x.isNumber && decide (x = .num k)) (hashnum t k)
  foundOrNew t (.num k) r

/-- `tab_setint(ks, t, key)`. -/
def tabSetint (t : Tab σ) (key : BitVec 32) : Except Fault (SetResult σ) :=
  if key.toNat < t.asize then return (t, some (.array key.toNat), none) else tabSetinth t key

/-- `tab_setstr(ks, t, key)`. -/
def tabSetstr (t : Tab σ) (key : σ) : Except Fault (SetResult σ) := do
  let r ← walk t (fun x => x.isString && decide (x = .str key)) (hashstr t key)
  foundOrNew t (.str key) r

/-- The generic lookup at the end of `tab_set`. -/
def tabSetgen (t : Tab σ) (key : Val σ) : Except Fault (SetResult σ) := do
  let r ← walk t (fun x => kpObjEqual x key) (hashkey t key)
  foundOrNew t key r

/-- `tab_set(ks, t, key)`. -/
def tabSet (ks : KState σ) (t : Tab σ) (key : Val σ) : Except Fault (SetResult σ) :=
  match key with
  | .str s => tabSetstr t s
  | .num nk =>
    let k : BitVec 32 := nk.setWidth 32
    if nk = k.setWidth 64 then tabSetint t k else tabSetgen t key
  | .kstack depth skip _ =>
    match ks.kpObjKstack2str depth skip with
    | none => return (t, none, none)
    | some bt => tabSetstr t bt
  | .eventstr _ =>
    match ks.eventStringify with
    | none => return (t, none, some .eventContext)
    | some none => return (t, none, none)
    | some (some ts) => tabSetstr t ts
  | .nil => return (t, none, some .nilIndex)
  | key => tabSetgen t key

/-- Store a value in the slot a `tab_set*` returned. -/
def putVal (r : SetResult σ) (v : Val σ) : Except Fault (Tab σ × Option TabErr) :=
  match r with
  | (t, some s, e) => return (← t.store v s, e)
  | (t, none, e) => return (t, e)

/-- Add to the slot a `tab_set*` returned. -/
def incrVal (r : SetResult σ) (n : Number) : Except Fault (Tab σ × Option TabErr) :=
  match r with
  | (t, some s, e) => do
    match ← t.load s with
    | .num m => return (← t.store (.num (m + n)) s, e)
    | .nil => return (← t.store (.num n) s, e)
    | _ => return (t, some .incrNonNumber)
  | (t, none, e) => return (t, e)

/-- `kp_tab_set(ks, t, key, val)`. -/
def kpTabSet (ks : KState σ) (t : Tab σ) (key val : Val σ) :
    Except Fault (Tab σ × Option TabErr) := do putVal (← tabSet ks t key) val

/-- `kp_tab_setint(ks, t, key, val)`. -/
def kpTabSetint (t : Tab σ) (key : BitVec 32) (val : Val σ) :
    Except Fault (Tab σ × Option TabErr) := do putVal (← tabSetint t key) val

/-- `kp_tab_setstr(ks, t, key, val)`. -/
def kpTabSetstr (t : Tab σ) (key : σ) (val : Val σ) :
    Except Fault (Tab σ × Option TabErr) := do putVal (← tabSetstr t key) val

/-- `kp_tab_incr(ks, t, key, n)`. -/
def kpTabIncr (ks : KState σ) (t : Tab σ) (key : Val σ) (n : Number) :
    Except Fault (Tab σ × Option TabErr) := do incrVal (← tabSet ks t key) n

/-- `kp_tab_incrint(ks, t, key, n)`. -/
def kpTabIncrint (t : Tab σ) (key : BitVec 32) (n : Number) :
    Except Fault (Tab σ × Option TabErr) := do incrVal (← tabSetint t key) n

/-- `kp_tab_incrstr(ks, t, key, n)`. -/
def kpTabIncrstr (t : Tab σ) (key : σ) (n : Number) :
    Except Fault (Tab σ × Option TabErr) := do incrVal (← tabSetstr t key) n

end model

end Ktap
