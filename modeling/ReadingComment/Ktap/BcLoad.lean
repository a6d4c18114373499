import ReadingComment.Ktap.BcRead
import ReadingComment.Lib.Format

/-!
# What loading a dump touches (`runtime/kp_bcread.c`)

The code of `BcRead.lean` on any bytes: its reads of the buffer, with lengths that are `int`s, and
its writes into the prototype, whose parts are placed by sums of `int`s that may overflow. What
strings, tables and instructions hold is left out, and whether they are had is up to the host.

`kp_assert` is empty, so nothing stops a read behind the end of the buffer (`outside`). A write
outside the block of the prototype or over its own fields, a null pointer and a prototype pushed
behind the end of the stack are `wild`.
-/

namespace Ktap.Load

open Codec

/-- What the reader asks the interpreter for. -/
inductive Request where
  /-- `kp_str_new(ks, str, len)` -/
  | str (str : Bytes)
  /-- `kp_tab_new(ks, asize, hbits)` -/
  | tab (asize : BitVec 32) (hbits : ℕ)
  /-- `kp_obj_new(ks, size)` -/
  | obj (size : BitVec 32)
  deriving DecidableEq, Repr

/-- The byte order of the host, and which requests it grants after those that were made before. -/
structure Host where
  be : Bool
  grants : List Request → Request → Bool

/-- How reading stops without a prototype. -/
inductive Stop where
  /-- `bcread_error(ctx, KP_ERR_BCFMT)` -/
  | bcfmt
  /-- `bcread_error(ctx, KP_ERR_BCBAD)` -/
  | bcbad
  /-- a string or a table that is not had: `NULL` is returned -/
  | noObject
  /-- a read outside of the buffer -/
  | outside
  /-- a write where the object is not, or a null pointer that is followed -/
  | wild
  /-- the prototype loop does not end -/
  | diverge
  deriving DecidableEq, Repr

def Stop.Reported (e : Stop) : Prop := e = .bcfmt ∨ e = .bcbad ∨ e = .noObject

instance : DecidablePred Stop.Reported := fun e =>
  inferInstanceAs (Decidable (e = .bcfmt ∨ e = .bcbad ∨ e = .noObject))

/-- The context of the reader. -/
structure Ctx where
  /-- `ctx->p - ctx->start` -/
  p : ℕ
  /-- `ks->top - bcread_oldtop(ctx)` -/
  depth : ℕ
  /-- the requests made so far, the last one first -/
  asked : List Request
  deriving DecidableEq, Repr

abbrev BcReader (α : Type) : Type := Reader Ctx Stop α

/-! ## Input -/

/-- `bcread_mem(ctx, len)` and reading the block; a negative length is taken for a huge one. -/
def bcreadMem (len : BitVec 32) : BcReader Bytes :=
  if len.toInt < 0 then throw .outside
  else do
    let block ← readMem .outside len.toNat
    modifySt fun ctx => { ctx with p := ctx.p + len.toNat }
    return block

/-- `bcread_byte(ctx)`. -/
def bcreadByte : BcReader (BitVec 8) := do return ((← bcreadMem 1).head?).getD 0

variable (host : Host)

/-- `bcread_uint32(ctx)`. -/
def bcreadUint32 : BcReader (BitVec 32) := do
  return BitVec.ofNat 32 (memNat host.be (← bcreadMem 4))

def request (r : Request) : BcReader Bool := do
  let ctx ← getSt
  modifySt fun ctx => { ctx with asked := r :: ctx.asked }
  return host.grants ctx.asked r

/-! ## The prototype -/

/-- `sizeof(ktap_proto_t)`. -/
def sizeofProto : ℤ := 96

/-- What the header of a prototype announces. -/
structure Sizes where
  sizeuv : BitVec 8
  sizekgc : BitVec 32
  sizekn : BitVec 32
  sizebc : BitVec 32
  sizedbg : BitVec 32
  numline : BitVec 32
  deriving DecidableEq, Repr

def Sizes.uvBytes (sz : Sizes) : BitVec 32 := (((sz.sizeuv.setWidth 32) + 1) &&& ~~~1) * 2

/-- `ofsk`. -/
def Sizes.ofsk (sz : Sizes) : BitVec 32 :=
  (BitVec.ofInt 32 sizeofProto + sz.sizebc * 4 + sz.sizekgc * 8 + 15) &&& ~~~15

/-- `ofsuv`. -/
def Sizes.ofsuv (sz : Sizes) : BitVec 32 := sz.ofsk + sz.sizekn * 16

/-- `ofsdbg`. -/
def Sizes.ofsdbg (sz : Sizes) : BitVec 32 := sz.ofsuv + sz.uvBytes

/-- `sizept`. -/
def Sizes.sizept (sz : Sizes) : BitVec 32 := sz.ofsdbg + sz.sizedbg

/-- The bytes are in the block of the prototype, behind its fields. -/
def Sizes.Holds (sz : Sizes) (ofs len : ℤ) : Prop :=
  sizeofProto ≤ ofs ∧ ofs + len ≤ sz.sizept.toInt

instance (sz : Sizes) (ofs len : ℤ) : Decidable (sz.Holds ofs len) :=
  inferInstanceAs (Decidable (_ ∧ _))

def touch (sz : Sizes) (ofs len : ℤ) : BcReader Unit :=
  if sz.Holds ofs len then return () else throw .wild

/-- `proto_bc(pt) + 1`. -/
def ofsCode : ℤ := sizeofProto + 4

/-- `*kr` when `n` constants are left to be read after it. -/
def Sizes.ofsKgc (sz : Sizes) (n : ℕ) : ℤ := sz.ofsk.toInt - 8 * (n + 1)

/-- The line information for each instruction: `sizeli`. -/
def Sizes.sizeli (sz : Sizes) : BitVec 32 := (sz.sizebc - 1) <<< lineShift sz.numline

/-! ## Constants -/

/-- A string of the dump: whether there is an object for it. `kp_str_new` reads its last byte before
it looks at the length. -/
def bcreadStr (len : BitVec 32) : BcReader Bool := do
  let str ← bcreadMem len
  request host (.str str)

/-- `bcread_ktabk(ctx, o)`: whether it succeeds. -/
def bcreadKtabk : BcReader Bool := do
  let tp ← bcreadUint32 host
  if bcdumpKtabStr ≤ tp.toInt then bcreadStr host (tp - bcdumpKtabStr)
  else if tp.toInt = bcdumpKtabNum then
    let _ ← bcreadMem 8
    return true
  else return true

def bcreadArray : ℕ → BcReader Bool
  | 0 => return true
  | n + 1 => do
    if ← bcreadKtabk host then bcreadArray n else return false

def bcreadHash : ℕ → BcReader Bool
  | 0 => return true
  | n + 1 => do
    if ← bcreadKtabk host then
      if ← bcreadKtabk host then bcreadHash n else return false
    else return false

/-- `bcread_ktab(ctx)`: whether there is a table. -/
def bcreadKtab : BcReader Bool := do
  let narray ← bcreadUint32 host
  let nhash ← bcreadUint32 host
  if ← request host (.tab narray (hsize2hbits nhash.toNat)) then
    if ← bcreadArray host narray.toInt.toNat then bcreadHash host nhash.toInt.toNat
    else return false
  else return false

/-- A CHILD constant: `ks->top--` unless there is no prototype. -/
def popProto : BcReader Unit := do
  let ctx ← getSt
  if ctx.depth = 0 then throw .bcbad
  else modifySt fun ctx => { ctx with depth := ctx.depth - 1 }

/-- Store a constant in front of the last `n` ones: `NULL` is stored, too, and ends the reading. -/
def storeKgc (sz : Sizes) (n : ℕ) (ok : Bool) : BcReader Unit := do
  touch sz (sz.ofsKgc n) 8
  if ok then return () else throw .noObject

/-- `bcread_kgc(ctx, pt, sizekgc)`. -/
def bcreadKgc (sz : Sizes) : ℕ → BcReader Unit
  | 0 => return ()
  | n + 1 => do
    let tp ← bcreadUint32 host
    if bcdumpKgcStr ≤ tp.toInt then
      storeKgc sz n (← bcreadStr host (tp - bcdumpKgcStr))
      bcreadKgc sz n
    else if tp.toInt = bcdumpKgcTab then
      storeKgc sz n (← bcreadKtab host)
      bcreadKgc sz n
    else if tp.toInt = bcdumpKgcChild then
      popProto
      storeKgc sz n true
      bcreadKgc sz n
    else throw .bcbad

/-- `bcread_knum(ctx, pt, sizekn)` from the `i`-th number on: the number and its type. -/
def bcreadKnum (sz : Sizes) (i : ℕ) : ℕ → BcReader Unit
  | 0 => return ()
  | n + 1 => do
    let _ ← bcreadMem 8
    touch sz (sz.ofsk.toInt + 16 * i) 12
    bcreadKnum sz (i + 1) n

/-! ## Code and debug information -/

/-- `bcread_swap(ctx)`. -/
def bcreadSwap (flags : BitVec 8) : Bool :=
  decide (flags &&& bcdumpFBe ≠ if host.be then bcdumpFBe else 0)

/-- `bcread_bytecode(ctx, pt, sizebc)`. -/
def bcreadBytecode (flags : BitVec 8) (sz : Sizes) : BcReader Unit := do
  touch sz sizeofProto 4
  let len := (sz.sizebc - 1) * 4
  let _ ← bcreadMem len
  touch sz ofsCode len.toInt
  if bcreadSwap host flags ∧ 1 < sz.sizebc.toInt then
    touch sz ofsCode (4 * (sz.sizebc.toInt - 1))

/-- `bcread_uv(ctx, pt, sizeuv)`. -/
def bcreadUv (sz : Sizes) : BcReader Unit :=
  if sz.sizeuv ≠ 0 then do
    let _ ← bcreadMem (sz.sizeuv.setWidth 32 * 2)
    touch sz sz.ofsuv.toInt (2 * sz.sizeuv.toNat)
  else return ()

/-- `bcread_varinfo(pt)`: the names are looked for in the debug information. -/
def bcreadVarinfo (sz : Sizes) (block : Bytes) : BcReader Unit :=
  if sz.sizeuv ≠ 0 then
    if 0 ≤ sz.sizeli.toInt ∧ (skipNames sz.sizeuv.toNat (block.drop sz.sizeli.toNat)).isSome then
      return ()
    else throw .wild
  else return ()

/-- `bcread_dbg(ctx, pt, sizedbg)`. -/
def bcreadDbg (flags : BitVec 8) (sz : Sizes) : BcReader Bytes := do
  let block ← bcreadMem sz.sizedbg
  touch sz sz.ofsdbg.toInt sz.sizedbg.toInt
  if bcreadSwap host flags ∧ 256 ≤ sz.numline.toInt ∧ 1 < sz.sizebc.toInt then
    touch sz sz.ofsdbg.toInt
      ((if sz.numline.toInt < 65536 then 2 else 4) * (sz.sizebc.toInt - 1))
  return block

def bcreadDbgHead (flags : BitVec 8) : BcReader (BitVec 32 × BitVec 32) :=
  if flags &&& bcdumpFStrip ≠ 0 then return (0, 0)
  else do
    let sizedbg ← bcreadUint32 host
    if sizedbg ≠ 0 then
      let _ ← bcreadUint32 host
      let numline ← bcreadUint32 host
      return (sizedbg, numline)
    else return (0, 0)

def bcreadSizes (flags : BitVec 8) : BcReader Sizes := do
  let _ ← bcreadByte
  let _ ← bcreadByte
  let _ ← bcreadByte
  let sizeuv ← bcreadByte
  let sizekgc ← bcreadUint32 host
  let sizekn ← bcreadUint32 host
  let sizebc ← bcreadUint32 host
  let (sizedbg, numline) ← bcreadDbgHead host flags
  return ⟨sizeuv, sizekgc, sizekn, sizebc + 1, sizedbg, numline⟩

/-- "Allocate prototype object and initialize its fields": the pointer is not looked at. The word in
front of the constants is set to zero. -/
def allocProto (sz : Sizes) : BcReader Unit := do
  if ← request host (.obj sz.sizept) then
    touch sz sizeofProto 0
    touch sz (sz.ofsk.toInt - 8 * (sz.sizekgc + 1).toInt) 4
  else throw .wild

/-- `bcread_proto(ctx)`. -/
def bcreadProto (flags : BitVec 8) : BcReader Unit := do
  let sz ← bcreadSizes host flags
  allocProto host sz
  bcreadBytecode host flags sz
  bcreadUv sz
  bcreadKgc host sz sz.sizekgc.toInt.toNat
  bcreadKnum sz 0 sz.sizekn.toInt.toNat
  if sz.sizedbg ≠ 0 then
    let block ← bcreadDbg host flags sz
    bcreadVarinfo sz block

/-! ## The dump -/

/-- "Read length": a zero byte, the shortcut for the end, is taken for a zero length. -/
def bcreadLength : BcReader (BitVec 32) := fun c =>
  if c.input.head? = some 0 then (do let _ ← bcreadMem 1; return 0 : BcReader _) c
  else bcreadUint32 host c

/-- Push the prototype that ends at `endp`: there are `room` slots above the saved top, and the
source does not look at their end. -/
def pushProto (room : ℕ) (endp : ℤ) : BcReader Unit := do
  let ctx ← getSt
  if ctx.p ≠ endp then throw .bcbad
  else if ctx.depth < room then modifySt fun ctx => { ctx with depth := ctx.depth + 1 }
  else throw .wild

/-- A prototype of `len` bytes. -/
def bcreadBody (flags : BitVec 8) (room : ℕ) (len : BitVec 32) : BcReader Unit := do
  let start ← getSt
  bcreadProto host flags
  pushProto room (start.p + len.toInt)

def protoLoop (flags : BitVec 8) (room : ℕ) : ℕ → BcReader Unit
  | 0 => throw .diverge
  | fuel + 1 => do
    let len ← bcreadLength host
    if len = 0 then return ()
    else
      bcreadBody host flags room len
      protoLoop flags room fuel

/-- `bcread_byte(ctx)` compared with a byte of the header. -/
def expectByte (b : BitVec 8) : BcReader Unit := do
  if (← bcreadByte) ≠ b then throw .bcfmt

/-- `bcread_header(ctx)`: the flags of the dump. -/
def bcreadHeader : BcReader (BitVec 8) := do
  expectByte bcdumpHead1
  expectByte bcdumpHead2
  expectByte bcdumpHead3
  expectByte bcdumpVersion
  let flags ← bcreadByte
  if flags &&& ~~~bcdumpFKnown ≠ 0 then throw .bcfmt
  else if flags &&& bcdumpFFfi ≠ 0 then throw .bcfmt
  else if flags &&& bcdumpFStrip ≠ 0 then
    if ← request host (.str ("striped".toUTF8.toList.map UInt8.toBitVec)) then return flags
    else throw .bcfmt
  else
    let len ← bcreadUint32 host
    if ← bcreadStr host len then return flags else throw .bcfmt

/-- The end of `kp_bcread`: one prototype, and nothing behind it. -/
def bcreadEnd : BcReader Unit := fun c =>
  if bytesLeft c.input.length ∨ c.st.depth ≠ 1 then .error .bcbad
  else .ok ((), { c with st := { c.st with depth := 0 } })

/-- `kp_bcread(ks, buff, len)` on a stack with `room` slots above its top, from the context on that
it starts with. -/
def kpBcreadFrom (room fuel : ℕ) : BcReader Unit := do
  let flags ← bcreadHeader host
  protoLoop host flags room fuel
  bcreadEnd

/-- `kp_bcread(ks, buff, len)`: whether a prototype is returned. -/
def kpBcread (room : ℕ) (buff : Bytes) : Except Stop Unit :=
  Prod.fst <$> kpBcreadFrom host room (buff.length + 1) ⟨buff, ⟨0, 0, []⟩⟩

end Ktap.Load
