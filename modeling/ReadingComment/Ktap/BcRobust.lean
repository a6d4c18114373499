import ReadingComment.Ktap.BcLoad

/-!
# The dumps that are loaded safely

`dump` is the format of a dump as far as its fields and the places of the parts of its
prototypes go: which blocks of bytes come one after another, what of them is a length, a
count or a type code, and where a dump is refused. Loading a byte string ends with a
prototype or an error, and reads nothing outside of it, exactly when the byte string
fits (`kpBcread_ends_iff`): the reader checks none of it.
-/

namespace Ktap.Load

open Codec

/-! ## The format of a dump -/

/-- The format of what follows, in a context. -/
abbrev Rest : Type := Ctx → Format

/-- The dump is rejected. -/
def refused : Rest := fun _ => .stop

/-- No bytes are right any more. -/
def broken : Rest := fun _ => .never

/-- A block of `n` bytes. -/
def block (n : ℕ) (k : Bytes → Rest) : Rest :=
  fun ctx => .field n fun w => k w { ctx with p := ctx.p + n }

/-- A block whose length is an `int`. -/
def sized (len : BitVec 32) (k : Bytes → Rest) : Rest :=
  if len.toInt < 0 then broken else block len.toNat k

/-- A byte. -/
def byte (k : BitVec 8 → Rest) : Rest := block 1 fun w => k ((w.head?).getD 0)

variable (host : Host)

/-- A word of four bytes. -/
def word (k : BitVec 32 → Rest) : Rest := block 4 fun w => k (BitVec.ofNat 32 (memNat host.be w))

/-- The host is asked for an object, and may not have it. -/
def asking (r : Request) (k : Bool → Rest) : Rest :=
  fun ctx => k (host.grants ctx.asked r) { ctx with asked := r :: ctx.asked }

def string (len : BitVec 32) (k : Bool → Rest) : Rest :=
  sized len fun w => asking host (.str w) k

/-- A part of the prototype that has to lie in it. -/
def placed (sz : Sizes) (ofs len : ℤ) (k : Rest) : Rest := if sz.Holds ofs len then k else broken

def entry (k : Bool → Rest) : Rest :=
  word host fun tp =>
    if bcdumpKtabStr ≤ tp.toInt then string host (tp - bcdumpKtabStr) k
    else if tp.toInt = bcdumpKtabNum then block 8 fun _ => k true
    else k true

/-- Keys and values one after another, up to one that there is no object for. -/
def entries (k : Bool → Rest) : ℕ → Rest
  | 0 => k true
  | n + 1 => entry host fun ok => if ok then entries k n else k false

/-- A template table. -/
def table (k : Bool → Rest) : Rest :=
  word host fun narray => word host fun nhash =>
    asking host (.tab narray (hsize2hbits nhash.toNat)) fun ok =>
      if ok then entries host k (narray.toInt.toNat + 2 * nhash.toInt.toNat) else k false

/-- The constants that are objects. -/
def consts (sz : Sizes) (k : Rest) : ℕ → Rest
  | 0 => k
  | n + 1 =>
    let stored (ok : Bool) : Rest :=
      placed sz (sz.ofsKgc n) 8 (if ok then consts sz k n else refused)
    word host fun tp =>
      if bcdumpKgcStr ≤ tp.toInt then string host (tp - bcdumpKgcStr) stored
      else if tp.toInt = bcdumpKgcTab then table host stored
      else if tp.toInt = bcdumpKgcChild then fun ctx =>
        if ctx.depth = 0 then .stop else stored true { ctx with depth := ctx.depth - 1 }
      else refused

/-- There is a place for each of `n` numbers. -/
def Sizes.HoldsNumbers (sz : Sizes) (ofs : ℤ) (n : ℕ) : Prop := n = 0 ∨ sz.Holds ofs (16 * n - 4)

instance (sz : Sizes) (ofs : ℤ) (n : ℕ) : Decidable (sz.HoldsNumbers ofs n) :=
  inferInstanceAs (Decidable (_ ∨ _))

/-- The numbers of a prototype, from the one at `ofs` on. -/
def numbers (sz : Sizes) (ofs : ℤ) (n : ℕ) (k : Rest) : Rest :=
  if sz.HoldsNumbers ofs n then block (8 * n) fun _ => k else broken

/-- The instructions. -/
def code (flags : BitVec 8) (sz : Sizes) (k : Rest) : Rest :=
  sized ((sz.sizebc - 1) * 4) fun _ =>
    if sz.Holds ofsCode ((sz.sizebc - 1) * 4).toInt ∧
        (bcreadSwap host flags ∧ 1 < sz.sizebc.toInt →
          sz.Holds ofsCode (4 * (sz.sizebc.toInt - 1))) then
      if sz.sizeuv = 0 then k
      else block (2 * sz.sizeuv.toNat) fun _ => placed sz sz.ofsuv.toInt (2 * sz.sizeuv.toNat) k
    else broken

/-- The debug information: line information and names of upvalues are where they are read. -/
def dbg (flags : BitVec 8) (sz : Sizes) (k : Rest) : Rest :=
  if sz.sizedbg = 0 then k
  else sized sz.sizedbg fun w =>
    if sz.Holds sz.ofsdbg.toInt sz.sizedbg.toInt ∧
        (bcreadSwap host flags ∧ 256 ≤ sz.numline.toInt ∧ 1 < sz.sizebc.toInt →
          sz.Holds sz.ofsdbg.toInt
            ((if sz.numline.toInt < 65536 then 2 else 4) * (sz.sizebc.toInt - 1))) ∧
        (sz.sizeuv ≠ 0 → 0 ≤ sz.sizeli.toInt ∧
          (skipNames sz.sizeuv.toNat (w.drop sz.sizeli.toNat)).isSome) then k
    else broken

/-- The sizes in front of a prototype. -/
def sizes (flags : BitVec 8) (k : Sizes → Rest) : Rest :=
  block 3 fun _ => byte fun sizeuv => word host fun sizekgc => word host fun sizekn =>
    word host fun sizebc =>
      let stripped : Rest := k ⟨sizeuv, sizekgc, sizekn, sizebc + 1, 0, 0⟩
      if flags &&& bcdumpFStrip ≠ 0 then stripped
      else word host fun sizedbg =>
        if sizedbg = 0 then stripped
        else word host fun _ => word host fun numline =>
          k ⟨sizeuv, sizekgc, sizekn, sizebc + 1, sizedbg, numline⟩

/-- A prototype: a block is had for it, and its fields and the word in front of its constants are in
the block. -/
def proto (flags : BitVec 8) (k : Rest) : Rest :=
  sizes host flags fun sz => asking host (.obj sz.sizept) fun ok =>
    if ok ∧ sz.Holds sizeofProto 4 ∧ sz.Holds (sz.ofsk.toInt - 8 * (sz.sizekgc + 1).toInt) 4 then
      code host flags sz
        (consts host sz (numbers sz sz.ofsk.toInt sz.sizekn.toInt.toNat (dbg host flags sz k))
        sz.sizekgc.toInt.toNat)
    else broken

/-- The end of a prototype: one of another length is refused, but not one that the stack has no room
for. -/
def pushed (room : ℕ) (endp : ℤ) (k : Rest) : Rest := fun ctx =>
  if ctx.p ≠ endp then .stop
  else if ctx.depth < room then k { ctx with depth := ctx.depth + 1 }
  else .never

/-- A prototype of `len` bytes. -/
def body (flags : BitVec 8) (room : ℕ) (len : BitVec 32) (k : Rest) : Rest := fun start =>
  proto host flags (pushed room (start.p + len.toInt) k) start

def length (k : BitVec 32 → Rest) : Rest :=
  block 1 fun w =>
    if w = [0] then k 0 else block 3 fun w' => k (BitVec.ofNat 32 (memNat host.be (w ++ w')))

/-- Less than `n` prototypes behind their lengths, up to a zero byte or a zero length. -/
def protos (flags : BitVec 8) (room : ℕ) (k : Rest) : ℕ → Rest
  | 0 => broken
  | n + 1 => length host fun len =>
    if len = 0 then k else body host flags room len (protos flags room k n)

def expected (b : BitVec 8) (k : Rest) : Rest := byte fun b' => if b' ≠ b then refused else k

/-- The header of the dump. -/
def header (k : BitVec 8 → Rest) : Rest :=
  expected bcdumpHead1 <| expected bcdumpHead2 <| expected bcdumpHead3 <| expected bcdumpVersion <|
    byte fun flags =>
      if flags &&& ~~~bcdumpFKnown ≠ 0 then refused
      else if flags &&& bcdumpFFfi ≠ 0 then refused
      else if flags &&& bcdumpFStrip ≠ 0 then
        asking host (.str ("striped".toUTF8.toList.map UInt8.toBitVec)) fun ok =>
          if ok then k flags else refused
      else word host fun len => string host len fun ok => if ok then k flags else refused

/-- A dump of less than `n` prototypes: what comes behind it is not looked at. -/
def dump (room n : ℕ) : Rest :=
  header host fun flags => protos host flags room (fun _ => .stop) n

/-! ## The reader follows the format -/

section follows

def Stop.Known (e : Stop) : Prop := e ≠ .diverge

theorem throw_fault {α : Type} {e : Stop} (h : e = .outside ∨ e = .wild) :
    Follows Stop.Reported Stop.Known (throw e : BcReader α) fun _ => broken := by
  rcases h with rfl | rfl <;> exact .throw_unreported (by decide) nofun

theorem throw_error {α : Type} {e : Stop} (h : e.Reported) :
    Follows Stop.Reported Stop.Known (throw e : BcReader α) fun _ => refused :=
  .throw_reported h (by rintro rfl; exact absurd h (by decide))

theorem sized_eq {len : BitVec 32} (h : 0 ≤ len.toInt) (k : Bytes → Rest) :
    sized len k = block len.toNat k := if_neg (not_lt.mpr h)

theorem fits_block_block (m n : ℕ) (k : Bytes → Bytes → Rest) (ctx : Ctx) (b : Bytes) :
    (block m (fun w => block n (k w)) ctx).Fits b ↔
      (block (m + n) (fun w => k (w.take m) (w.drop m)) ctx).Fits b := by
  simp only [block, Nat.add_assoc]
  exact Format.fits_field_field m n _ b

theorem fits_block_broken (n : ℕ) (ctx : Ctx) (b : Bytes) :
    (block n (fun _ => broken) ctx).Fits b ↔ False := by
  simp [block, broken, Format.fits_field]

theorem bcreadMem_follows (len : BitVec 32) :
    Follows Stop.Reported Stop.Known (bcreadMem len) (sized len) := by
  have hblock := (Follows.mem (show ¬ Stop.outside.Reported by decide)
    (show Stop.outside.Known from nofun) len.toNat).bind fun w =>
      (Follows.modifySt fun ctx : Ctx => { ctx with p := ctx.p + len.toNat }).bind fun _ =>
        .pure w
  refine ((throw_fault (.inl rfl)).ite hblock).congr fun k s b => ?_
  rw [sized]
  split <;> rfl

theorem bcreadByte_follows : Follows Stop.Reported Stop.Known bcreadByte byte :=
  .bind (bcreadMem_follows 1) fun _ => .pure _

theorem bcreadUint32_follows :
    Follows Stop.Reported Stop.Known (bcreadUint32 host) (word host) :=
  .bind (bcreadMem_follows 4) fun _ => .pure _

theorem request_follows (r : Request) :
    Follows Stop.Reported Stop.Known (request host r) (asking host r) :=
  ⟨fun _ _ _ hf b ctx => hf (host.grants ctx.asked r) b { ctx with asked := r :: ctx.asked },
    fun c => le_refl c.input.length⟩

theorem touch_follows (sz : Sizes) (ofs len : ℤ) :
    Follows Stop.Reported Stop.Known (touch sz ofs len) fun k => placed sz ofs len (k ()) :=
  (Follows.pure ()).ite (throw_fault (.inr rfl))

theorem bcreadStr_follows (len : BitVec 32) :
    Follows Stop.Reported Stop.Known (bcreadStr host len) (string host len) :=
  .bind (bcreadMem_follows len) fun _ => request_follows host _

/-! ### Constants -/

theorem bcreadKtabk_follows :
    Follows Stop.Reported Stop.Known (bcreadKtabk host) (entry host) :=
  .bind (bcreadUint32_follows host) fun _ =>
    .ite (bcreadStr_follows host _)
      (.ite (.bind (bcreadMem_follows 8) fun _ => .pure _) (.pure _))

theorem bcreadArray_follows (n : ℕ) :
    Follows Stop.Reported Stop.Known (bcreadArray host n) fun k => entries host k n := by
  induction n with
  | zero => exact .pure true
  | succ n ih => exact (bcreadKtabk_follows host).bind (ih.iteBool (.pure false))

theorem bcreadHash_follows (n : ℕ) :
    Follows Stop.Reported Stop.Known (bcreadHash host n) fun k => entries host k (2 * n) := by
  induction n with
  | zero => exact .pure true
  | succ n ih =>
    have hval := (bcreadKtabk_follows host).bind (ih.iteBool (.pure false))
    exact (bcreadKtabk_follows host).bind (hval.iteBool (.pure false))

theorem entries_add (k : Bool → Rest) (m n : ℕ) :
    entries host k (m + n) =
      entries host (fun ok => if ok then entries host k n else k false) m := by
  induction m with
  | zero =>
    rw [Nat.zero_add]
    rfl
  | succ m ih =>
    rw [Nat.add_right_comm, entries, entries, ih]
    rfl

theorem bcreadKtab_follows :
    Follows Stop.Reported Stop.Known (bcreadKtab host) (table host) := by
  have hentries := fun narray nhash : BitVec 32 =>
    (bcreadArray_follows host narray.toInt.toNat).bind
      ((bcreadHash_follows host nhash.toInt.toNat).iteBool (.pure false))
  refine ((bcreadUint32_follows host).bind fun narray =>
    (bcreadUint32_follows host).bind fun nhash =>
      (request_follows host (.tab narray (hsize2hbits nhash.toNat))).bind
        ((hentries narray nhash).iteBool (.pure false))).congr fun k s b => ?_
  simp only [table, entries_add]

theorem popProto_follows :
    Follows Stop.Reported Stop.Known popProto fun k ctx =>
      if ctx.depth = 0 then .stop else k () { ctx with depth := ctx.depth - 1 } := by
  have hpop : ∀ ctx : Ctx, Follows Stop.Reported Stop.Known
      (if ctx.depth = 0 then throw .bcbad
        else modifySt fun ctx : Ctx => { ctx with depth := ctx.depth - 1 } : BcReader Unit)
      fun k ctx' =>
        if ctx.depth = 0 then .stop else k () { ctx' with depth := ctx'.depth - 1 } := by
    intro ctx
    refine ((throw_error (by decide)).ite (.modifySt _)).congr fun k ctx' b => ?_
    split <;> rfl
  exact (Follows.getSt.bind hpop).congr fun _ _ _ => Iff.rfl

theorem storeKgc_follows (sz : Sizes) (n : ℕ) (ok : Bool) :
    Follows Stop.Reported Stop.Known (storeKgc sz n ok) fun k =>
      placed sz (sz.ofsKgc n) 8 (if ok then k () else refused) :=
  (touch_follows sz (sz.ofsKgc n) 8).bind fun _ =>
    (Follows.pure ()).ite (throw_error (by decide))

theorem bcreadKgc_follows (sz : Sizes) (n : ℕ) :
    Follows Stop.Reported Stop.Known (bcreadKgc host sz n) fun k => consts host sz (k ()) n := by
  induction n with
  | zero => exact .pure ()
  | succ n ih =>
    have hstore := fun ok : Bool => (storeKgc_follows sz n ok).bind fun _ => ih
    exact (bcreadUint32_follows host).bind fun tp =>
      ((bcreadStr_follows host (tp - bcdumpKgcStr)).bind hstore).ite
        (((bcreadKtab_follows host).bind hstore).ite
          ((popProto_follows.bind fun _ => hstore true).ite (throw_error (by decide))))

theorem Sizes.holdsNumbers_succ (sz : Sizes) (ofs : ℤ) (n : ℕ) :
    sz.HoldsNumbers ofs (n + 1) ↔ sz.Holds ofs 12 ∧ sz.HoldsNumbers (ofs + 16) n := by
  simp only [HoldsNumbers, Holds, sizeofProto]
  omega

theorem bcreadKnum_follows (sz : Sizes) (i n : ℕ) :
    Follows Stop.Reported Stop.Known (bcreadKnum sz i n) fun k =>
      numbers sz (sz.ofsk.toInt + 16 * i) n (k ()) := by
  induction n generalizing i with
  | zero =>
    refine (Follows.pure ()).congr fun k ctx b => ?_
    simp [numbers, Sizes.HoldsNumbers, block, Format.fits_field]
  | succ n ih =>
    refine ((bcreadMem_follows 8).bind fun _ =>
      (touch_follows sz (sz.ofsk.toInt + 16 * i) 12).bind fun _ => ih (i + 1)).congr
        fun k ctx b => ?_
    have hofs : sz.ofsk.toInt + 16 * ((i + 1 : ℕ) : ℤ) = sz.ofsk.toInt + 16 * i + 16 := by
      push_cast
      omega
    rw [sized_eq (by decide), hofs]
    change (block 8 _ ctx).Fits b ↔ _
    simp only [numbers, Sizes.holdsNumbers_succ, placed]
    by_cases h : sz.Holds (sz.ofsk.toInt + 16 * i) 12
    · by_cases hrest : sz.HoldsNumbers (sz.ofsk.toInt + 16 * i + 16) n
      · simp only [if_pos h, if_pos hrest, if_pos (And.intro h hrest)]
        rw [fits_block_block, Nat.mul_succ, Nat.add_comm]
      · simp only [if_pos h, if_neg hrest, if_neg (fun hc : _ ∧ _ => hrest hc.2)]
        exact fits_block_broken 8 ctx b
    · simp only [if_neg h, if_neg (fun hc : _ ∧ _ => h hc.1)]
      exact fits_block_broken 8 ctx b

/-! ### Prototypes -/

theorem bcreadBytecode_follows (flags : BitVec 8) (sz : Sizes) :
    Follows Stop.Reported Stop.Known (bcreadBytecode host flags sz) fun k =>
      placed sz sizeofProto 4 (sized ((sz.sizebc - 1) * 4) fun _ =>
        if sz.Holds ofsCode ((sz.sizebc - 1) * 4).toInt ∧
            (bcreadSwap host flags ∧ 1 < sz.sizebc.toInt →
              sz.Holds ofsCode (4 * (sz.sizebc.toInt - 1))) then k ()
        else broken) := by
  refine ((touch_follows sz sizeofProto 4).bind fun _ =>
    (bcreadMem_follows ((sz.sizebc - 1) * 4)).bind fun _ =>
      (touch_follows sz ofsCode ((sz.sizebc - 1) * 4).toInt).bind fun _ =>
        (touch_follows sz ofsCode (4 * (sz.sizebc.toInt - 1))).ite (.pure ())).congr
          fun k ctx b => ?_
  have hplaced : ∀ k : Rest, placed sz ofsCode ((sz.sizebc - 1) * 4).toInt
      (if bcreadSwap host flags ∧ 1 < sz.sizebc.toInt then
        placed sz ofsCode (4 * (sz.sizebc.toInt - 1)) k else k) =
      if sz.Holds ofsCode ((sz.sizebc - 1) * 4).toInt ∧
          (bcreadSwap host flags ∧ 1 < sz.sizebc.toInt →
            sz.Holds ofsCode (4 * (sz.sizebc.toInt - 1))) then k
      else broken := by
    intro k
    simp only [placed]
    split_ifs <;> simp_all
  rw [← hplaced]

theorem uvBytes_eq (u : BitVec 8) :
    0 ≤ (u.setWidth 32 * 2).toInt ∧ (u.setWidth 32 * 2).toNat = 2 * u.toNat := by
  have hlt := u.isLt
  have hnat : (u.setWidth 32 * 2).toNat = 2 * u.toNat := by bv_omega
  refine ⟨?_, hnat⟩
  rw [BitVec.toInt_eq_toNat_of_lt (by omega)]
  omega

theorem bcreadUv_follows (sz : Sizes) :
    Follows Stop.Reported Stop.Known (bcreadUv sz) fun k =>
      if sz.sizeuv = 0 then k ()
      else block (2 * sz.sizeuv.toNat) fun _ =>
        placed sz sz.ofsuv.toInt (2 * sz.sizeuv.toNat) (k ()) := by
  obtain ⟨hpos, hnat⟩ := uvBytes_eq sz.sizeuv
  refine (((bcreadMem_follows (sz.sizeuv.setWidth 32 * 2)).bind fun _ =>
    touch_follows sz sz.ofsuv.toInt (2 * sz.sizeuv.toNat)).ite (.pure ())).congr fun k ctx b => ?_
  rw [sized_eq hpos, hnat, ite_not]

theorem bcreadDbg_follows (flags : BitVec 8) (sz : Sizes) :
    Follows Stop.Reported Stop.Known (bcreadDbg host flags sz) fun k =>
      sized sz.sizedbg fun w => placed sz sz.ofsdbg.toInt sz.sizedbg.toInt
        (if bcreadSwap host flags ∧ 256 ≤ sz.numline.toInt ∧ 1 < sz.sizebc.toInt then
          placed sz sz.ofsdbg.toInt
            ((if sz.numline.toInt < 65536 then 2 else 4) * (sz.sizebc.toInt - 1)) (k w)
        else k w) := by
  have hswap : ∀ w : Bytes, Follows Stop.Reported Stop.Known
      (do if bcreadSwap host flags ∧ 256 ≤ sz.numline.toInt ∧ 1 < sz.sizebc.toInt then
            touch sz sz.ofsdbg.toInt
              ((if sz.numline.toInt < 65536 then 2 else 4) * (sz.sizebc.toInt - 1))
          return w) fun k =>
        if bcreadSwap host flags ∧ 256 ≤ sz.numline.toInt ∧ 1 < sz.sizebc.toInt then
          placed sz sz.ofsdbg.toInt
            ((if sz.numline.toInt < 65536 then 2 else 4) * (sz.sizebc.toInt - 1)) (k w)
        else k w := by
    intro w
    by_cases h : bcreadSwap host flags ∧ 256 ≤ sz.numline.toInt ∧ 1 < sz.sizebc.toInt
    · simp only [if_pos h]
      exact (touch_follows sz _ _).bind fun _ => .pure w
    · simp only [if_neg h]
      exact .pure w
  exact (bcreadMem_follows sz.sizedbg).bind fun w =>
    (touch_follows sz sz.ofsdbg.toInt sz.sizedbg.toInt).bind fun _ => hswap w

theorem bcreadVarinfo_follows (sz : Sizes) (w : Bytes) :
    Follows Stop.Reported Stop.Known (bcreadVarinfo sz w) fun k =>
      if sz.sizeuv ≠ 0 then
        if 0 ≤ sz.sizeli.toInt ∧ (skipNames sz.sizeuv.toNat (w.drop sz.sizeli.toNat)).isSome then
          k ()
        else broken
      else k () :=
  ((Follows.pure ()).ite (throw_fault (.inr rfl))).ite (.pure ())

theorem bcreadDbgInfo_follows (flags : BitVec 8) (sz : Sizes) :
    Follows Stop.Reported Stop.Known
      (do if sz.sizedbg ≠ 0 then
            let block ← bcreadDbg host flags sz
            bcreadVarinfo sz block) fun k => dbg host flags sz (k ()) := by
  refine (((bcreadDbg_follows host flags sz).bind fun w => bcreadVarinfo_follows sz w).ite
    (.pure ())).congr fun k ctx b => ?_
  rw [dbg, ite_not]
  congr! 4 with _ w
  simp only [placed]
  split_ifs <;> simp_all

theorem bcreadDbgHead_follows (flags : BitVec 8) :
    Follows Stop.Reported Stop.Known (bcreadDbgHead host flags) fun k =>
      if flags &&& bcdumpFStrip ≠ 0 then k (0, 0)
      else word host fun sizedbg =>
        if sizedbg ≠ 0 then word host fun _ => word host fun numline => k (sizedbg, numline)
        else k (0, 0) :=
  (Follows.pure _).ite ((bcreadUint32_follows host).bind fun sizedbg =>
    ((bcreadUint32_follows host).bind fun _ =>
      (bcreadUint32_follows host).bind fun numline => .pure (sizedbg, numline)).ite (.pure (0, 0)))

theorem bcreadSizes_follows (flags : BitVec 8) :
    Follows Stop.Reported Stop.Known (bcreadSizes host flags) (sizes host flags) := by
  refine (bcreadByte_follows.bind fun _ => bcreadByte_follows.bind fun _ =>
    bcreadByte_follows.bind fun _ => bcreadByte_follows.bind fun sizeuv =>
      (bcreadUint32_follows host).bind fun sizekgc =>
        (bcreadUint32_follows host).bind fun sizekn =>
          (bcreadUint32_follows host).bind fun sizebc =>
            (bcreadDbgHead_follows host flags).bind fun h =>
              .pure (⟨sizeuv, sizekgc, sizekn, sizebc + 1, h.1, h.2⟩ : Sizes)).congr
                fun k ctx b => ?_
  simp only [sizes, byte, fits_block_block, ite_not]

theorem allocProto_follows (sz : Sizes) :
    Follows Stop.Reported Stop.Known (allocProto host sz) fun k =>
      asking host (.obj sz.sizept) fun ok =>
        if ok then
          placed sz sizeofProto 0 (placed sz (sz.ofsk.toInt - 8 * (sz.sizekgc + 1).toInt) 4 (k ()))
        else broken :=
  (request_follows host (.obj sz.sizept)).bind
    (((touch_follows sz sizeofProto 0).bind fun _ => touch_follows sz _ 4).iteBool
      (throw_fault (.inr rfl)))

theorem placed_head (sz : Sizes) (ok : Bool) (k : Rest) :
    (if ok then
      placed sz sizeofProto 0 (placed sz (sz.ofsk.toInt - 8 * (sz.sizekgc + 1).toInt) 4
        (placed sz sizeofProto 4 k))
    else broken) =
      if ok ∧ sz.Holds sizeofProto 4 ∧ sz.Holds (sz.ofsk.toInt - 8 * (sz.sizekgc + 1).toInt) 4 then
        k
      else broken := by
  have hfields : sz.Holds sizeofProto 4 → sz.Holds sizeofProto 0 :=
    fun h => ⟨h.1, by have := h.2; omega⟩
  simp only [placed]
  split_ifs <;> simp_all

theorem bcreadProto_follows (flags : BitVec 8) :
    Follows Stop.Reported Stop.Known (bcreadProto host flags) fun k =>
      proto host flags (k ()) := by
  refine ((bcreadSizes_follows host flags).bind fun sz =>
    (allocProto_follows host sz).bind fun _ =>
      (bcreadBytecode_follows host flags sz).bind fun _ =>
        (bcreadUv_follows sz).bind fun _ =>
          (bcreadKgc_follows host sz sz.sizekgc.toInt.toNat).bind fun _ =>
            (bcreadKnum_follows sz 0 sz.sizekn.toInt.toNat).bind fun _ =>
              bcreadDbgInfo_follows host flags sz).congr fun k ctx b => ?_
  simp only [placed_head, Nat.cast_zero, mul_zero, add_zero]
  rfl

/-! ### The dump -/

theorem bcreadLength_follows :
    Follows Stop.Reported Stop.Known (bcreadLength host) (length host) := by
  have hend : Follows Stop.Reported Stop.Known
      (do let _ ← bcreadMem 1; return 0 : BcReader (BitVec 32)) fun k => sized 1 fun _ => k 0 :=
    (bcreadMem_follows 1).bind fun _ => .pure 0
  have hlen := bcreadUint32_follows host
  constructor
  · intro β f k hf b ctx
    have hbind : (bcreadLength host >>= f) ⟨b, ctx⟩ =
        bcreadLength host ⟨b, ctx⟩ >>= fun p => f p.1 p.2 := rfl
    rw [hbind, bcreadLength]
    by_cases h0 : b.head? = some 0
    · rw [if_pos h0]
      refine (hend.ends_bind β f k hf b ctx).trans ?_
      have htake : b.take 1 = [0] := by
        cases b <;> simp_all
      rw [sized_eq (by decide)]
      simp only [length, block, Format.fits_field, if_pos htake]
      rfl
    · rw [if_neg h0]
      refine (hlen.ends_bind β f k hf b ctx).trans ?_
      have htake : b.take 1 ≠ [0] := by
        cases b <;> simp_all
      have hword := fits_block_block 1 3
        (fun w w' => k (BitVec.ofNat 32 (memNat host.be (w ++ w')))) ctx b
      simp only [List.take_append_drop] at hword
      refine hword.symm.trans ?_
      simp only [length, block, Format.fits_field, if_neg htake]
  · intro c
    rw [bcreadLength]
    by_cases h0 : c.input.head? = some 0
    · rw [if_pos h0]
      exact hend.stops c
    · rw [if_neg h0]
      exact hlen.stops c

theorem pushProto_follows (room : ℕ) (endp : ℤ) :
    Follows Stop.Reported Stop.Known (pushProto room endp) fun k => pushed room endp (k ()) := by
  have hpush : ∀ ctx : Ctx, Follows Stop.Reported Stop.Known
      (if ctx.p ≠ endp then throw Stop.bcbad
        else if ctx.depth < room then modifySt fun ctx : Ctx => { ctx with depth := ctx.depth + 1 }
        else throw .wild : BcReader Unit) fun k ctx' =>
      if ctx.p ≠ endp then .stop
      else if ctx.depth < room then k () { ctx' with depth := ctx'.depth + 1 }
      else .never := by
    intro ctx
    refine ((throw_error (by decide)).ite ((Follows.modifySt _).ite (throw_fault (.inr rfl)))).congr
      fun k ctx' b => ?_
    split_ifs <;> rfl
  exact (Follows.getSt.bind hpush).congr fun _ _ _ => Iff.rfl

theorem bcreadBody_follows (flags : BitVec 8) (room : ℕ) (len : BitVec 32) :
    Follows Stop.Reported Stop.Known (bcreadBody host flags room len) fun k =>
      body host flags room len (k ()) := by
  have hproto := fun start : Ctx => (bcreadProto_follows host flags).bind fun _ =>
    pushProto_follows room (start.p + len.toInt)
  exact (Follows.getSt.bind hproto).congr fun _ _ _ => Iff.rfl

theorem protoLoop_follows (flags : BitVec 8) (room n : ℕ) :
    Follows Stop.Reported (fun _ => True) (protoLoop host flags room n) fun k =>
      protos host flags room (k ()) n := by
  induction n with
  | zero => exact .throw_unreported (by decide) trivial
  | succ n ih =>
    have hbody := fun len : BitVec 32 =>
      ((bcreadBody_follows host flags room len).weaken fun _ _ => trivial).bind fun _ => ih
    exact ((bcreadLength_follows host).weaken fun _ _ => trivial).bind fun len =>
      (Follows.pure ()).ite (hbody len)

theorem expectByte_follows (b : BitVec 8) :
    Follows Stop.Reported Stop.Known (expectByte b) fun k => expected b (k ()) :=
  bcreadByte_follows.bind fun _ => (throw_error (by decide)).ite (.pure ())

theorem bcreadHeader_follows :
    Follows Stop.Reported Stop.Known (bcreadHeader host) (header host) := by
  have hflags : ∀ flags : BitVec 8, Follows Stop.Reported Stop.Known
      (pure flags : BcReader (BitVec 8)) fun k => k flags := .pure
  have hname := fun flags : BitVec 8 =>
    (hflags flags).iteBool (throw_error (e := .bcfmt) (by decide))
  exact (expectByte_follows _).bind fun _ => (expectByte_follows _).bind fun _ =>
    (expectByte_follows _).bind fun _ => (expectByte_follows _).bind fun _ =>
      bcreadByte_follows.bind fun flags =>
        (throw_error (by decide)).ite ((throw_error (by decide)).ite
          (((request_follows host _).bind (hname flags)).ite
            ((bcreadUint32_follows host).bind fun len =>
              (bcreadStr_follows host len).bind (hname flags))))

end follows

/-! ## Loading -/

theorem bcreadEnd_ends (b : Bytes) (ctx : Ctx) :
    Ends Stop.Reported (bcreadEnd ⟨b, ctx⟩) := by
  rw [bcreadEnd]
  split
  · exact .inr (.inl rfl)
  · trivial

theorem ends_map {E α β : Type} (reported : E → Prop) (f : α → β) (r : Except E α) :
    Ends reported (f <$> r) ↔ Ends reported r := by
  cases r <;> rfl

/-- The call returns with a prototype or an error, and has read nothing outside of the buffer, if
and only if the buffer holds what the dump announces up to its end, or up to where it is refused. -/
theorem kpBcread_ends_iff (room : ℕ) (buff : Bytes) :
    Ends Stop.Reported (kpBcread host room buff) ↔
      (dump host room (buff.length + 1) ⟨0, 0, []⟩).Fits buff := by
  have hheader : Follows Stop.Reported (fun _ => True) (bcreadHeader host) (header host) :=
    (bcreadHeader_follows host).weaken fun _ _ => trivial
  have hloop := hheader.bind fun flags => protoLoop_follows host flags room (buff.length + 1)
  have hfrom : kpBcreadFrom host room (buff.length + 1) = (do
      let flags ← bcreadHeader host
      protoLoop host flags room (buff.length + 1)) >>= fun _ => bcreadEnd :=
    (bind_assoc ..).symm
  rw [kpBcread, ends_map, hfrom]
  exact hloop.ends_bind Unit (fun _ => bcreadEnd) (fun _ _ => .stop)
    (fun _ b ctx => iff_true_intro (bcreadEnd_ends b ctx)) buff ⟨0, 0, []⟩

/-! ## The loop ends -/

theorem bcreadMem_length {len : BitVec 32} {c c' : Cursor Ctx} {w : Bytes}
    (h : bcreadMem len c = .ok (w, c')) : c'.input.length + len.toNat = c.input.length := by
  rw [bcreadMem] at h
  split at h
  · cases h
  · obtain ⟨w', c₁, hm, h⟩ := bind_eq_ok.mp h
    rw [readMem] at hm
    split at hm
    · cases hm
      cases h
      simp
      omega
    · cases hm

theorem bcreadLength_lt {c c' : Cursor Ctx} {len : BitVec 32}
    (h : bcreadLength host c = .ok (len, c')) : c'.input.length < c.input.length := by
  have hpos : ∀ (n : BitVec 32) (f : Bytes → BitVec 32), 0 < n.toNat →
      (do return f (← bcreadMem n) : BcReader (BitVec 32)) c = .ok (len, c') →
      c'.input.length < c.input.length := by
    intro n f hn h
    obtain ⟨w, c₁, hm, h⟩ := bind_eq_ok.mp h
    have hlen := bcreadMem_length hm
    cases h
    omega
  rw [bcreadLength] at h
  split at h
  · exact hpos 1 (fun _ => 0) (by decide) h
  · exact hpos 4 _ (by decide) h

/-- **Run lemma** of the loop over the prototypes: every round takes bytes. -/
theorem protoLoop_ne_diverge (flags : BitVec 8) (room fuel : ℕ) (c : Cursor Ctx)
    (hfuel : c.input.length < fuel) : protoLoop host flags room fuel c ≠ .error .diverge := by
  induction fuel generalizing c with
  | zero => exact absurd hfuel (Nat.not_lt_zero _)
  | succ fuel ih =>
    intro h
    rcases bind_eq_error.mp h with hl | ⟨len, c₁, hl, h⟩
    · exact (bcreadLength_follows host).known_of_error hl rfl
    · have hlt := bcreadLength_lt host hl
      have hbody := bcreadBody_follows host flags room len
      split at h
      · cases h
      · rcases bind_eq_error.mp h with hb | ⟨_, c₂, hb, h⟩
        · exact hbody.known_of_error hb rfl
        · have hle := hbody.length_le hb
          exact ih c₂ (by omega) h

theorem kpBcread_ne_diverge (room : ℕ) (buff : Bytes) :
    kpBcread host room buff ≠ .error .diverge := by
  intro h
  have hfrom : kpBcreadFrom host room (buff.length + 1) ⟨buff, ⟨0, 0, []⟩⟩ = .error .diverge := by
    rw [kpBcread] at h
    cases hc : kpBcreadFrom host room (buff.length + 1) ⟨buff, ⟨0, 0, []⟩⟩ with
    | ok p =>
      rw [hc] at h
      cases h
    | error e =>
      rw [hc] at h
      cases h
      rfl
  rcases bind_eq_error.mp hfrom with hh | ⟨flags, c₁, hh, h⟩
  · exact (bcreadHeader_follows host).known_of_error hh rfl
  · have hle := (bcreadHeader_follows host).length_le hh
    rcases bind_eq_error.mp h with hl | ⟨_, c₂, _, he⟩
    · exact protoLoop_ne_diverge host flags room _ c₁ (Nat.lt_succ_of_le hle) hl
    · rw [bcreadEnd] at he
      split at he <;> cases he

/-- **Robust loading**: the call ends with a prototype or an error, and has read nothing outside of
the buffer, if and only if the buffer fits the format of dumps. (Every prototype takes bytes, so
there are no more of them than the buffer has.) -/
theorem kpBcread_robust_iff (room : ℕ) (buff : Bytes) :
    kpBcread host room buff ≠ .error .diverge ∧
      (Ends Stop.Reported (kpBcread host room buff) ↔
        (dump host room (buff.length + 1) ⟨0, 0, []⟩).Fits buff) :=
  ⟨kpBcread_ne_diverge host room buff, kpBcread_ends_iff host room buff⟩

/-- A little-endian host that grants what the limits of the interpreter and `kmalloc` allow. -/
def smallHost : Host where
  be := false
  grants _
    | .str str => str.length < kpMaxStr
    | .tab asize hbits => asize.toNat ≤ kpMaxAsize ∧ hbits ≤ kpMaxHbits
    | .obj size => 0 < size.toInt ∧ size.toInt ≤ 2 ^ 22

/-- A stripped dump of one function of a single instruction, `RET0`. -/
def leafDump : Bytes :=
  [0x15, 0x22, 0x06, 0x01, 0x02] ++ [20, 0, 0, 0] ++ [0, 0, 2, 0] ++ [0, 0, 0, 0] ++
    [0, 0, 0, 0] ++ [1, 0, 0, 0] ++ [0x50, 0, 1, 0] ++ [0]

example : (dump smallHost ktapStackSize (leafDump.length + 1) ⟨0, 0, []⟩).Fits leafDump := by
  decide +kernel

/-- The same dump without its last bytes: the instruction is copied from behind the buffer. -/
theorem kpBcread_truncated :
    ¬ Ends Stop.Reported (kpBcread smallHost ktapStackSize (leafDump.take 27)) := by
  decide +kernel

end Ktap.Load
