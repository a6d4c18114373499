import ReadingComment.Ktap.Proto

/-!
# The bytecode reader (`runtime/kp_bcread.c`)

The state of a reader is the part of the ks stack above the saved top, its last
entry first, and the strings of the string table. Lengths and type codes are `int`
in the source: they are read as 32-bit words and compared as signed numbers.
-/

namespace Ktap

open Codec

/-- How reading a dump can stop. -/
inductive ReadErr where
  /-- `bcread_error(ctx, KP_ERR_BCFMT)` -/
  | bcfmt
  /-- `bcread_error(ctx, KP_ERR_BCBAD)` -/
  | bcbad
  /-- a string that `kp_str_new` refuses or a table that `kp_tab_new` refuses -/
  | noObject
  /-- a type code that only `kp_assert` excludes -/
  | badTag
  /-- a read past the end of the buffer -/
  | outOfBounds
  /-- a prototype is written past the end of the ks stack -/
  | stackOverrun
  /-- the prototype loop does not end -/
  | diverge
  /-- a table operation goes wrong -/
  | tab (f : Fault)
  deriving DecidableEq, Repr

/-- The context of the reader: the byte order of the host (`KP_BE`), the flags of the dump, the
interpreter state, and what uninitialised memory holds. -/
structure ReadCtx where
  be : Bool
  flags : BitVec 8
  ks : KState Bytes
  garbage : ℕ → Node Bytes
  garbageA : ℕ → Val Bytes
  garbageRef : BitVec 64

/-- `BCDUMP_F_BE`. -/
def bcdumpFBe : BitVec 8 := 0x01

/-- `BCDUMP_F_STRIP`. -/
def bcdumpFStrip : BitVec 8 := 0x02

/-- `BCDUMP_F_FFI`. -/
def bcdumpFFfi : BitVec 8 := 0x04

/-- `BCDUMP_F_KNOWN`. -/
def bcdumpFKnown : BitVec 8 := 0x07

/-- `bcread_swap(ctx)`. -/
def bcreadSwap (ctx : ReadCtx) : Bool :=
  decide (ctx.flags &&& bcdumpFBe ≠ if ctx.be then bcdumpFBe else 0)

section input

variable {S : Type}

/-- `bcread_mem(ctx, len)`. -/
def bcreadMem (len : ℕ) : Reader S ReadErr Bytes := readMem .outOfBounds len

/-- `bcread_byte(ctx)`. -/
def bcreadByte : Reader S ReadErr (BitVec 8) := do return ((← bcreadMem 1).head?).getD 0

/-- An `n`-byte word, in the byte order of the host. -/
def bcreadWord (be : Bool) (n : ℕ) : Reader S ReadErr (BitVec (8 * n)) := do
  return BitVec.ofNat (8 * n) (memNat be (← bcreadMem n))

/-- `bcread_uint32(ctx)`. -/
def bcreadUint32 (be : Bool) : Reader S ReadErr (BitVec 32) := bcreadWord be 4

end input

/-- The stack above the saved top, and the strings of the table. -/
structure ReadState where
  stack : List (Proto (Tab Bytes))
  strs : Finset Bytes

abbrev BcReader (α : Type) : Type := Reader ReadState ReadErr α

def liftRead {α : Type} : Except ReadErr α → BcReader α
  | .ok a => pure a
  | .error e => throw e

/-- A `ktap_number`. -/
def bcreadNumber (be : Bool) : BcReader Number := bcreadWord be 8

/-- Reverse the bytes of an `n`-byte word. -/
def bswap (n : ℕ) (v : BitVec (8 * n)) : BitVec (8 * n) :=
  BitVec.ofNat (8 * n) (leNat (leBytes n v.toNat).reverse)

/-! ## What the words written read back as -/

section input

variable {S : Type}

theorem bcreadMem_reads (w : Bytes) (s : S) : Reads (bcreadMem w.length) w s w s :=
  Reads.mem _ w s

theorem bcreadByte_reads (b : BitVec 8) (s : S) : Reads bcreadByte [b] s b s :=
  (bcreadMem_reads [b] s).map fun w => (w.head?).getD 0

theorem bcreadWord_reads (be : Bool) (n : ℕ) (v : BitVec (8 * n)) (s : S) :
    Reads (bcreadWord be n) (memBytes be n v.toNat) s v s := by
  have hmem := bcreadMem_reads (memBytes be n v.toNat) s
  rw [length_memBytes] at hmem
  have hword := hmem.map fun w => BitVec.ofNat (8 * n) (memNat be w)
  rwa [ofNat_memNat_memBytes] at hword

theorem bcreadUint32_reads (be : Bool) (v : ℕ) (s : S) :
    Reads (bcreadUint32 be) (bcwriteUint32 be v) s (BitVec.ofNat 32 v) s := by
  have hmem := bcreadMem_reads (memBytes be 4 v) s
  rw [length_memBytes] at hmem
  have hword := hmem.map fun w => BitVec.ofNat (8 * 4) (memNat be w)
  have hv : BitVec.ofNat (8 * 4) (memNat be (memBytes be 4 v)) = BitVec.ofNat 32 v := by
    rw [memNat_memBytes]
    exact BitVec.eq_of_toNat_eq (by simp)
  rwa [hv] at hword

end input

/-! ## Debug information -/

/-- Reverse every `n` bytes. -/
def swapEach (n : ℕ) : ℕ → Bytes → Bytes
  | 0, bs => bs
  | count + 1, bs => (bs.take n).reverse ++ swapEach n count (bs.drop n)

/-- `bcread_dbg(ctx, pt, sizedbg)`; `nbc` is `sizebc-1`. -/
def bcreadDbg (ctx : ReadCtx) (nbc : ℕ) (numline : BitVec 32) (sizedbg : ℕ) : BcReader Bytes := do
  let block ← bcreadMem sizedbg
  if bcreadSwap ctx && decide (numline.toInt ≥ 256) then
    if numline.toInt < 65536 then return swapEach 2 nbc block else return swapEach 4 nbc block
  else return block

/-- `while (*p++ || --n) ;` for `n > 0`: how far `p` moves, `none` when it runs off the block. -/
def skipNames : ℕ → Bytes → Option ℕ
  | _, [] => none
  | n, b :: bs =>
    if b ≠ 0 then (skipNames n bs).map (· + 1)
    else if n ≤ 1 then some 1
    else (skipNames (n - 1) bs).map (· + 1)

/-- `bcread_varinfo(pt)`, as an offset from `uvinfo`. -/
def bcreadVarinfo (sizeuv : ℕ) (uvinfo : Bytes) : Except ReadErr ℕ :=
  if sizeuv = 0 then .ok 0
  else
    match skipNames sizeuv uvinfo with
    | some k => .ok k
    | none => .error .outOfBounds

/-! ## Constants -/

def internStr (str : Bytes) : BcReader Bytes := fun c =>
  match kpStrNew c.st.strs str with
  | some strs => .ok (str, { c with st := { c.st with strs := strs } })
  | none => .error .noObject

def bcreadStr (len : ℕ) : BcReader Bytes := do internStr (← bcreadMem len)

/-- `setitype(o, ~tp)`: the other half of the value keeps what it held. -/
def priVal (ctx : ReadCtx) (tp : BitVec 32) : Except ReadErr (Val Bytes) :=
  if tp = 0 then .ok .nil
  else if tp = 1 then .ok (.bool false)
  else if tp = 2 then .ok (.bool true)
  else if ~~~tp = 0 then .ok (.obj .zero ctx.garbageRef)
  else .error .badTag

/-- `bcread_ktabk(ctx, o)`. -/
def bcreadKtabk (ctx : ReadCtx) : BcReader (Val Bytes) := do
  let tp ← bcreadUint32 ctx.be
  if tp.toInt ≥ bcdumpKtabStr then
    let s ← bcreadStr (tp.toNat - bcdumpKtabStr)
    return .str s
  else if tp.toInt = bcdumpKtabNum then
    let n ← bcreadNumber ctx.be
    return .num n
  else liftRead (priVal ctx tp)

/-- `FLS(x)`. -/
def fls (x : ℕ) : ℕ := Nat.log2 x

/-- `hsize2hbits(s)`. -/
def hsize2hbits (s : ℕ) : ℕ := if s = 0 then 0 else if s = 1 then 1 else 1 + fls (s - 1)

/-- The loop over the hash entries: each is stored with `kp_tab_set`, whose messages are not
looked at. -/
def bcreadHash (ctx : ReadCtx) : ℕ → Tab Bytes → BcReader (Tab Bytes)
  | 0, t => return t
  | n + 1, t => do
    let key ← bcreadKtabk ctx
    let val ← bcreadKtabk ctx
    match kpTabSet ctx.ks t key val with
    | .ok (t, _) => bcreadHash ctx n t
    | .error f => throw (.tab f)

/-- `bcread_ktab(ctx)`. -/
def bcreadKtab (ctx : ReadCtx) : BcReader (Tab Bytes) := do
  let narray ← bcreadUint32 ctx.be
  let nhash ← bcreadUint32 ctx.be
  match kpTabNew ctx.garbage ctx.garbageA narray.toNat (hsize2hbits nhash.toNat) with
  | .error _ => throw .noObject
  | .ok t => do
    let array ← readMany (bcreadKtabk ctx) narray.toNat
    bcreadHash ctx nhash.toNat { t with array := array }

def popProto : BcReader (Proto (Tab Bytes)) := fun c =>
  match c.st.stack with
  | [] => .error .bcbad
  | pt :: st => .ok (pt, { c with st := { c.st with stack := st } })

/-- `bcread_kgc(ctx, pt, sizekgc)`. -/
def bcreadKgc (ctx : ReadCtx) : ℕ → BcReader (Kgc (Tab Bytes))
  | 0 => return .nil
  | n + 1 => do
    let tp ← bcreadUint32 ctx.be
    if tp.toInt ≥ bcdumpKgcStr then
      let s ← bcreadStr (tp.toNat - bcdumpKgcStr)
      return .str s (← bcreadKgc ctx n)
    else if tp.toInt = bcdumpKgcTab then
      let t ← bcreadKtab ctx
      return .tab t (← bcreadKgc ctx n)
    else if tp.toInt = bcdumpKgcChild then
      let pt ← popProto
      return .child pt (← bcreadKgc ctx n)
    else throw .bcbad

/-- `bcread_knum(ctx, pt, sizekn)`. -/
def bcreadKnum (ctx : ReadCtx) (sizekn : ℕ) : BcReader (List Number) :=
  readMany (bcreadNumber ctx.be) sizekn

/-! ## Prototypes -/

/-- `bcread_bytecode(ctx, pt, sizebc)`; `nbc` is `sizebc-1`. -/
def bcreadBytecode (ctx : ReadCtx) (flags framesize : BitVec 8) (nbc : ℕ) :
    BcReader (List (BitVec 32)) := do
  let ins ← readMany (bcreadWord ctx.be 4) nbc
  return bcFunc flags framesize :: if bcreadSwap ctx then ins.map (bswap 4) else ins

/-- `bcread_uv(ctx, pt, sizeuv)`. -/
def bcreadUv (ctx : ReadCtx) (sizeuv : ℕ) : BcReader (List (BitVec 16)) := do
  let uv ← readMany (bcreadWord ctx.be 2) sizeuv
  return if bcreadSwap ctx then uv.map (bswap 2) else uv

def bcreadDbgHead (ctx : ReadCtx) : BcReader (BitVec 32 × BitVec 32 × BitVec 32) :=
  if ctx.flags &&& bcdumpFStrip ≠ 0 then return (0, 0, 0)
  else do
    let sizedbg ← bcreadUint32 ctx.be
    if sizedbg ≠ 0 then
      let firstline ← bcreadUint32 ctx.be
      let numline ← bcreadUint32 ctx.be
      return (sizedbg, firstline, numline)
    else return (0, 0, 0)

/-- The end of `bcread_proto`: read and initialize debug info. -/
def bcreadDbgInfo (ctx : ReadCtx) (nbc sizeuv : ℕ) (h : BitVec 32 × BitVec 32 × BitVec 32) :
    BcReader (Option Dbg) :=
  let (sizedbg, firstline, numline) := h
  if sizedbg ≠ 0 then do
    let sizeli := nbc <<< lineShift numline
    let block ← bcreadDbg ctx nbc numline sizedbg.toNat
    let k ← liftRead (bcreadVarinfo sizeuv (block.drop sizeli))
    return some ⟨firstline, numline, block, sizeli, sizeli + k⟩
  else return none

/-- `bcread_proto(ctx)`. -/
def bcreadProto (ctx : ReadCtx) : BcReader (Proto (Tab Bytes)) := do
  let flags ← bcreadByte
  let numparams ← bcreadByte
  let framesize ← bcreadByte
  let sizeuv ← bcreadByte
  let sizekgc ← bcreadUint32 ctx.be
  let sizekn ← bcreadUint32 ctx.be
  let nbc ← bcreadUint32 ctx.be
  let h ← bcreadDbgHead ctx
  let bc ← bcreadBytecode ctx flags framesize nbc.toInt.toNat
  let uv ← bcreadUv ctx sizeuv.toNat
  let kgc ← bcreadKgc ctx sizekgc.toInt.toNat
  let kn ← bcreadKnum ctx sizekn.toInt.toNat
  let dbg ← bcreadDbgInfo ctx nbc.toInt.toNat sizeuv.toNat h
  return .mk ⟨flags, numparams, framesize, bc, uv, kn, dbg⟩ kgc

/-! ## The prototype loop -/

/-- `set_proto(ks->top, pt); incr_top(ks);` with `room` slots from the saved top to the end of the
stack. The source does not look at `stack_last` here. -/
def pushProto (room : ℕ) (st : List (Proto (Tab Bytes))) (pt : Proto (Tab Bytes)) :
    Except ReadErr (List (Proto (Tab Bytes))) :=
  if st.length < room then .ok (pt :: st) else .error .stackOverrun

/-- `KTAP_STACK_SIZE`. -/
def ktapStackSize : ℕ := 120

/-- Read one body of `len` bytes and push the prototype: `KP_ERR_BCBAD` unless exactly the body
was read. -/
def bcreadBody (ctx : ReadCtx) (room : ℕ) (len : ℤ) (c : Cursor ReadState) :
    Except ReadErr (Cursor ReadState) := do
  let (pt, c') ← bcreadProto ctx c
  if (c'.input.length : ℤ) + len ≠ c.input.length then .error .bcbad
  else return { c' with st := { c'.st with stack := ← pushProto room c'.st.stack pt } }

/-- The loop `for (;;)` of `kp_bcread` over any reader of bodies: it stops at a zero byte (the
"shortcut EOF") or at a zero length. -/
def protoLoop {S : Type} (be : Bool) (body : ℤ → Cursor S → Except ReadErr (Cursor S)) :
    ℕ → Cursor S → Except ReadErr (Cursor S)
  | 0, _ => .error .diverge
  | fuel + 1, c =>
    if c.input.head? = some 0 then .ok { c with input := c.input.tail }
    else
      match bcreadUint32 be c with
      | .error e => .error e
      | .ok (len, c) =>
        if len = 0 then .ok c
        else
          match body len.toInt c with
          | .error e => .error e
          | .ok c => protoLoop be body fuel c

/-! ## The dump -/

/-- `BCDUMP_HEAD1`. -/
def bcdumpHead1 : BitVec 8 := 0x15

/-- `BCDUMP_HEAD2`. -/
def bcdumpHead2 : BitVec 8 := 0x22

/-- `BCDUMP_HEAD3`. -/
def bcdumpHead3 : BitVec 8 := 0x06

/-- `BCDUMP_VERSION`. -/
def bcdumpVersion : BitVec 8 := 1

/-- `bcwrite_header(ctx)`. -/
def bcwriteHeader (be strip : Bool) (chunkname : Bytes) : Bytes :=
  [bcdumpHead1, bcdumpHead2, bcdumpHead3, bcdumpVersion,
    (if strip then bcdumpFStrip else 0) + (if be then bcdumpFBe else 0)] ++
    if strip then [] else bcwriteUint32 be chunkname.length ++ chunkname

/-- What `kp_bcwrite` writes behind the header: each body behind its length, and the footer. -/
def bcwriteFrames (be : Bool) (bodies : List Bytes) : Bytes :=
  bodies.flatMap (fun b => bcwriteUint32 be b.length ++ b) ++ [0]

/-- `kp_bcwrite(pt, writer, data, strip)`. -/
def kpBcwrite (be strip : Bool) (chunkname : Bytes) (pt : Proto (Tab Bytes)) : Bytes :=
  bcwriteHeader be strip chunkname ++ bcwriteFrames be (bcwriteProto be strip pt)

/-- `bcread_byte(ctx)` compared with a byte of the header. -/
def expectByte {S : Type} (b : BitVec 8) : Reader S ReadErr Unit := do
  let x ← bcreadByte
  if x ≠ b then throw .bcfmt

/-- `bcread_header(ctx)`: the flags of the dump, the chunk name, and the strings of the table with
it. -/
def bcreadHeader {S : Type} (be : Bool) (strs : Finset Bytes) :
    Reader S ReadErr (BitVec 8 × Bytes × Finset Bytes) := do
  expectByte bcdumpHead1
  expectByte bcdumpHead2
  expectByte bcdumpHead3
  expectByte bcdumpVersion
  let flags ← bcreadByte
  if flags &&& ~~~bcdumpFKnown ≠ 0 then throw .bcfmt
  if flags &&& bcdumpFFfi ≠ 0 then throw .bcfmt
  let str ← if flags &&& bcdumpFStrip ≠ 0 then
      pure ("striped".toUTF8.toList.map UInt8.toBitVec)
    else do
      let len ← bcreadUint32 be
      bcreadMem len.toNat
  match kpStrNew strs str with
  | none => throw .bcfmt
  | some strs => return (flags, str, strs)

/-- `(int32_t)(2*(uint32_t)(ctx.pe - ctx.p)) > 0`. -/
def bytesLeft (n : ℕ) : Bool := decide ((2 * BitVec.ofNat 32 n).toInt > 0)

/-- `kp_bcread(ks, buff, len)` on a stack with `room` slots above its top, with the strings of the
table. -/
def kpBcread (ctx : ReadCtx) (room : ℕ) (strs : Finset Bytes) (buff : Bytes) :
    Except ReadErr (Proto (Tab Bytes)) := do
  let ((flags, _, strs), c) ← bcreadHeader (S := Unit) ctx.be strs ⟨buff, ()⟩
  let ctx := { ctx with flags := flags }
  let c ← protoLoop ctx.be (bcreadBody ctx room) (c.input.length + 1) ⟨c.input, [], strs⟩
  if bytesLeft c.input.length then .error .bcbad
  else
    match c.st.stack with
    | [pt] => return pt
    | _ => .error .bcbad

end Ktap
