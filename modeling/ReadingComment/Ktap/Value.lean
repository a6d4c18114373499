import Mathlib.Data.BitVec

/-!
# Values of the ktap virtual machine

The tagged values of `include/ktap_types.h` (`ktap_val_t`) and the equality of `runtime/kp_obj.c`:

* a number is a 64-bit word (`ktap_number` is a `long`);
* a string is a reference to an interned object, an element of an arbitrary type `σ` with decidable
  identity and a precomputed hash (`StrObj.hash`);
* every other collectable or opaque value is a tag and a 64-bit reference;
* `argstr` (`KTAP_TEVENTSTR`) and `stack()` (`KTAP_TKSTACK`) are turned into strings when used as
  keys.

`KTAP_TLIGHTUD`, which no function of the runtime ever sets, is left out.
-/

namespace Ktap

/-- A `ktap_number`. -/
abbrev Number : Type := BitVec 64

/-- Interned string objects carry the hash computed when they were interned. -/
class StrObj (σ : Type) where
  /-- the `hash` field of `ktap_str_t` -/
  hash : σ → BitVec 32

/-- The tags of values that are compared and hashed through their reference. -/
inductive ObjTag where
  | upval
  | thread
  | proto
  | func
  | cfunc
  | cdata
  | tab
  | udata
  | kip
  | uip
  /-- no tag of the runtime: the type word of zeroed memory -/
  | zero
  deriving DecidableEq, Repr

/-- A `ktap_val_t`. -/
inductive Val (σ : Type) where
  | nil
  | bool (b : Bool)
  | num (n : Number)
  | str (s : σ)
  /-- a tag and the `gc` word of the union -/
  | obj (t : ObjTag) (gc : BitVec 64)
  /-- `set_eventstr` writes only the tag: the union keeps whatever it held, here the string
  object the stale word points to, if it points to one -/
  | eventstr (stale : Option σ)
  /-- `set_kstack` writes the two 16-bit fields and leaves the other half of the union alone -/
  | kstack (depth skip : BitVec 16) (stale : BitVec 32)
  deriving DecidableEq, Repr

/-- The type word `KTAP_T*` of a tag. -/
def ObjTag.word : ObjTag → BitVec 32
  | .upval => ~~~6
  | .thread => ~~~7
  | .proto => ~~~8
  | .func => ~~~9
  | .cfunc => ~~~10
  | .cdata => ~~~11
  | .tab => ~~~12
  | .udata => ~~~13
  | .kip => ~~~16
  | .uip => ~~~17
  | .zero => 0

/-- The type tags (`KTAP_T*`) of the values of `Val`. -/
inductive Itype where
  | nil
  /-- `KTAP_TFALSE` and `KTAP_TTRUE` -/
  | bool (b : Bool)
  | num
  | str
  | obj (t : ObjTag)
  | eventstr
  | kstack
  deriving DecidableEq, Repr

def Itype.word : Itype → BitVec 32
  | .nil => ~~~0
  | .bool b => if b then ~~~2 else ~~~1
  | .num => ~~~3
  | .str => ~~~5
  | .obj t => t.word
  | .eventstr => ~~~14
  | .kstack => ~~~15

namespace Val

variable {σ : Type}

/-- `itype(o)`. -/
def itype : Val σ → Itype
  | nil => .nil
  | bool b => .bool b
  | num _ => .num
  | str _ => .str
  | obj t _ => .obj t
  | eventstr _ => .eventstr
  | kstack .. => .kstack

/-- `is_nil(o)`. -/
def isNil : Val σ → Bool
  | nil => true
  | _ => false

/-- `is_number(o)`. -/
def isNumber : Val σ → Bool
  | num _ => true
  | _ => false

/-- `is_string(o)`. -/
def isString : Val σ → Bool
  | str _ => true
  | _ => false

@[simp] theorem isNil_iff (v : Val σ) : v.isNil = true ↔ v = nil := by
  cases v <;> simp [isNil]

@[simp] theorem isNil_eq_false_iff (v : Val σ) : v.isNil = false ↔ v ≠ nil := by
  cases v <;> simp [isNil]

/-- The values a table stores under their own identity: numbers, strings, booleans and
object references. -/
def IsKey : Val σ → Prop
  | bool _ | num _ | str _ | obj _ _ => True
  | nil | eventstr _ | kstack .. => False

theorem IsKey.bool (b : Bool) : (Val.bool b : Val σ).IsKey := trivial

theorem IsKey.num (n : Number) : (Val.num n : Val σ).IsKey := trivial

theorem IsKey.str (s : σ) : (Val.str s).IsKey := trivial

theorem IsKey.obj (t : ObjTag) (gc : BitVec 64) : (Val.obj t gc : Val σ).IsKey := trivial

theorem IsKey.ne_nil {v : Val σ} (h : v.IsKey) : v ≠ nil := by
  rintro rfl
  exact h

end Val

section equality

variable {σ : Type} [DecidableEq σ]

/-- `kp_obj_rawequal(t1, t2)`: the comparison made once the tags agree. -/
def kpObjRawequal : Val σ → Val σ → Bool
  | .nil, _ => true
  | .bool _, _ => true
  | .num a, .num b => a == b
  | .str a, .str b => a == b
  | .obj _ a, .obj _ b => a == b
  | .eventstr a, .eventstr b => a == b
  | .kstack d k r, .kstack d' k' r' => d == d' && k == k' && r == r'
  | _, _ => false

/-- `kp_obj_equal(o1, o2)`. -/
def kpObjEqual (a b : Val σ) : Bool :=
  decide (a.itype = b.itype) && kpObjRawequal a b

@[simp] theorem kpObjEqual_iff (a b : Val σ) : kpObjEqual a b = true ↔ a = b := by
  constructor
  · intro h
    rw [kpObjEqual, Bool.and_eq_true, decide_eq_true_eq] at h
    obtain ⟨ht, hr⟩ := h
    cases a <;> cases b <;> simp_all [Val.itype, kpObjRawequal]
  · rintro rfl
    rw [kpObjEqual, Bool.and_eq_true, decide_eq_true_eq]
    refine ⟨rfl, ?_⟩
    cases a <;> simp [kpObjRawequal]

end equality

end Ktap
