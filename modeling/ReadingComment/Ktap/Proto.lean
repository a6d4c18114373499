import ReadingComment.Ktap.Tab
import ReadingComment.Lib.Codec
import Mathlib.Data.Finset.Card

/-!
# Prototypes and the bytecode dump (`userspace/kp_bcwrite.c`, `runtime/kp_bcread.c`)

The compiler writes a tree of function prototypes as a sequence of bodies, children before their
parent, and the kernel reads them back with a stack of finished prototypes. `bcwrite*` produce
bytes, `bcread*` are readers whose state is the stack above the saved top.

Words are memory images in the byte order `be` of the host. Reading past the end of the buffer,
which the source leaves to the empty `kp_assert`, is the error `outOfBounds`, and a prototype past
the end of the stack is `stackOverrun`. Allocations succeed; what becomes of the bytes in the output
buffer is said with the buffer.
-/

namespace Ktap

open Codec

/-! ## String objects -/

/-- `KP_MAX_STR`. -/
def kpMaxStr : ℕ := 512

/-- The loop of `kp_str_hash`. -/
def kpStrHashLoop (str : Bytes) (step : ℕ) : ℕ → ℕ → BitVec 32 → BitVec 32
  | 0, _, h => h
  | fuel + 1, l1, h =>
    if step ≤ l1 then
      kpStrHashLoop str step fuel (l1 - step)
        (h ^^^ ((h <<< 5) + (h >>> 2) + ((str[l1 - 1]?).getD 0).setWidth 32))
    else h

/-- `kp_str_hash(str, len)`. -/
def kpStrHash (str : Bytes) : BitVec 32 :=
  kpStrHashLoop str (str.length / 32 + 1) str.length str.length
    (201236 ^^^ BitVec.ofNat 32 str.length)

/-- An interned string object is named by its bytes. -/
instance : StrObj Bytes := ⟨kpStrHash⟩

/-- `KP_MAX_STRNUM`. -/
def kpMaxStrnum : ℕ := 9999

/-- `kp_str_new(ks, str, len)`, with the strings of the table, of which there are `g->strnum`:
`NULL` for a string that is too long, and for a new one when there are too many. -/
def kpStrNew (strs : Finset Bytes) (str : Bytes) : Option (Finset Bytes) :=
  if str.length ≥ kpMaxStr then none
  else if str ∈ strs then some strs
  else if strs.card > kpMaxStrnum then none
  else some (insert str strs)

/-! ## Prototypes -/

/-- `PROTO_CHILD`. -/
def protoChild : BitVec 8 := 0x01

/-- `PROTO_VARARG`. -/
def protoVararg : BitVec 8 := 0x02

/-- `PROTO_FFI`. -/
def protoFfi : BitVec 8 := 0x04

/-- The debug information of a prototype: one block that starts at `lineinfo`, with `uvinfo` and
`varinfo` as offsets into it. -/
structure Dbg where
  firstline : BitVec 32
  numline : BitVec 32
  block : Bytes
  uvinfo : ℕ
  varinfo : ℕ
  deriving DecidableEq, Repr

/-- The fields of a `ktap_proto_t` other than its collectable constants. -/
structure ProtoHead where
  flags : BitVec 8
  numparams : BitVec 8
  framesize : BitVec 8
  /-- bytecode instructions, the function header first -/
  bc : List (BitVec 32)
  /-- upvalue references -/
  uv : List (BitVec 16)
  /-- number constants -/
  kn : List Number
  /-- `none` when `lineinfo` is null -/
  dbg : Option Dbg
  deriving DecidableEq, Repr

mutual

/-- A prototype, with template tables of type `τ`. -/
inductive Proto (τ : Type) where
  | mk (hd : ProtoHead) (kgc : Kgc τ)

/-- The collectable constants of a prototype, from `k - sizekgc` up to `k - 1`. -/
inductive Kgc (τ : Type) where
  | nil
  | str (s : Bytes) (rest : Kgc τ)
  | tab (t : τ) (rest : Kgc τ)
  | child (pt : Proto τ) (rest : Kgc τ)

end

/-- `sizekgc`. -/
def Kgc.size {τ : Type} : Kgc τ → ℕ
  | .nil => 0
  | .str _ rest => rest.size + 1
  | .tab _ rest => rest.size + 1
  | .child _ rest => rest.size + 1

/-- The function header `bc[0]`, as `fs_fixup_bc` and `bcread_bytecode` both make it:
`BCINS_AD(BC_FUNCV or BC_FUNCF, framesize, 0)`. -/
def bcFunc (flags framesize : BitVec 8) : BitVec 32 :=
  (if flags &&& protoVararg ≠ 0 then 97 else 94) ||| framesize.setWidth 32 <<< 8

/-- Bytes of line information for each instruction, as a shift: `numline < 256 ? 0 :
numline < 65536 ? 1 : 2`. -/
def lineShift (numline : BitVec 32) : ℕ :=
  if numline.toInt < 256 then 0 else if numline.toInt < 65536 then 1 else 2

/-! ## Writer -/

/-- `BCDUMP_KGC_CHILD`. -/
def bcdumpKgcChild : ℕ := 0

/-- `BCDUMP_KGC_TAB`. -/
def bcdumpKgcTab : ℕ := 1

/-- `BCDUMP_KGC_STR`. -/
def bcdumpKgcStr : ℕ := 5

/-- `BCDUMP_KTAB_NUM`. -/
def bcdumpKtabNum : ℕ := 4

/-- `BCDUMP_KTAB_STR`. -/
def bcdumpKtabStr : ℕ := 5

section writer

variable (be : Bool)

/-- `bcwrite_uint32(p, v)`. -/
def bcwriteUint32 (v : ℕ) : Bytes := memBytes be 4 v

/-- `bcwrite_ktabk(ctx, o, narrow)`: a constant key or value of a template table. -/
def bcwriteKtabk : Val Bytes → Bytes
  | .str str => bcwriteUint32 be (bcdumpKtabStr + str.length) ++ str
  | .num n => bcwriteUint32 be bcdumpKtabNum ++ memBytes be 8 n.toNat
  | o => bcwriteUint32 be (~~~o.itype.word).toNat

/-- `for (i = asize-1; i >= 0; i--) if (!is_nil(&array[i])) break; narray = i+1;`. -/
def narrayOf (array : List (Val Bytes)) : ℕ → ℕ
  | 0 => 0
  | i + 1 => if ((array[i]?).getD .nil).isNil then narrayOf array i else i + 1

def usedNodes (t : Tab Bytes) : List (Node Bytes) :=
  if t.hmask.toNat > 0 then (t.node.filter fun n => !n.val.isNil).reverse else []

/-- `bcwrite_ktab(ctx, p, t)`. -/
def bcwriteKtab (t : Tab Bytes) : Bytes :=
  let narray := narrayOf t.array t.asize
  let used := usedNodes t
  bcwriteUint32 be narray ++ (bcwriteUint32 be used.length ++
    ((t.array.take narray).flatMap (bcwriteKtabk be) ++
      used.flatMap fun n => bcwriteKtabk be n.key ++ bcwriteKtabk be n.val))

/-- `bcwrite_kgc(ctx, pt)`. -/
def bcwriteKgc : Kgc (Tab Bytes) → Bytes
  | .nil => []
  | .str s rest => (bcwriteUint32 be (bcdumpKgcStr + s.length) ++ s) ++ bcwriteKgc rest
  | .tab t rest => (bcwriteUint32 be bcdumpKgcTab ++ bcwriteKtab be t) ++ bcwriteKgc rest
  | .child _ rest => bcwriteUint32 be bcdumpKgcChild ++ bcwriteKgc rest

/-- `bcwrite_knum(ctx, pt)`. -/
def bcwriteKnum (kn : List Number) : Bytes := kn.flatMap fun n => memBytes be 8 n.toNat

/-- `bcwrite_bytecode(ctx, p, pt)`: the header instruction is left out. -/
def bcwriteBytecode (bc : List (BitVec 32)) : Bytes :=
  bc.tail.flatMap fun i => memBytes be 4 i.toNat

/-- The block of debug information that is written: none when it is stripped or empty. -/
def writtenDbg (strip : Bool) (hd : ProtoHead) : Option Dbg :=
  if strip then none else hd.dbg.filter fun d => !d.block.isEmpty

/-- The size of the debug information, and the line range when there is some. -/
def bcwriteDbgHead (strip : Bool) (hd : ProtoHead) : Bytes :=
  if strip then []
  else
    match writtenDbg strip hd with
    | none => bcwriteUint32 be 0
    | some d => bcwriteUint32 be d.block.length ++
        (bcwriteUint32 be d.firstline.toNat ++ bcwriteUint32 be d.numline.toNat)

def bcwriteDbg (strip : Bool) (hd : ProtoHead) : Bytes :=
  match writtenDbg strip hd with
  | none => []
  | some d => d.block

/-- What `bcwrite_proto(ctx, pt)` writes for `pt` itself: the body, without its length. -/
def bcwriteBody (strip : Bool) (hd : ProtoHead) (kgc : Kgc (Tab Bytes)) : Bytes :=
  [hd.flags &&& (protoChild ||| protoVararg ||| protoFfi)] ++ ([hd.numparams] ++
    ([hd.framesize] ++ ([BitVec.ofNat 8 hd.uv.length] ++
      (bcwriteUint32 be kgc.size ++ (bcwriteUint32 be hd.kn.length ++
        (bcwriteUint32 be (hd.bc.length - 1) ++ (bcwriteDbgHead be strip hd ++
          (bcwriteBytecode be hd.bc ++ (hd.uv.flatMap (fun u => memBytes be 2 u.toNat) ++
            (bcwriteKgc be kgc ++ (bcwriteKnum be hd.kn ++ bcwriteDbg strip hd)))))))))))

mutual

/-- `bcwrite_proto(ctx, pt)`: the bodies in the order in which they are written. -/
def bcwriteProto (strip : Bool) : Proto (Tab Bytes) → List Bytes
  | .mk hd kgc =>
    (if hd.flags &&& protoChild ≠ 0 then bcwriteChildren strip kgc else []) ++
      [bcwriteBody be strip hd kgc]

/-- The loop over the children, which walks the constants from `k - 1` downwards. -/
def bcwriteChildren (strip : Bool) : Kgc (Tab Bytes) → List Bytes
  | .nil => []
  | .str _ rest => bcwriteChildren strip rest
  | .tab _ rest => bcwriteChildren strip rest
  | .child pt rest => bcwriteChildren strip rest ++ bcwriteProto strip pt

end

end writer

end Ktap
