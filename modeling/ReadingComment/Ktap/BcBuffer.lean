import ReadingComment.Ktap.BcRead

/-!
# The output buffer of the dump (`userspace/kp_util.c`, `userspace/kp_bcwrite.c`)

Each record of the dump is written behind a call that makes room for it. What a record reserves and
what it writes is counted by hand in the source, and the buffer grows to twice what is written.
Sizes are natural numbers: an `int` that overflows has no meaning in the source.
-/

namespace Ktap.BcBuffer

open Codec List

/-- `SBuf`: what is allocated from `b` to `e`, and how far `p` is from `b`. -/
structure SBuf where
  mem : Bytes
  len : ℕ
  len_le : len ≤ mem.length

namespace SBuf

/-- `sbufleft(sb)` -/
def left (sb : SBuf) : ℕ := sb.mem.length - sb.len

/-- The bytes in front of `p`. -/
def written (sb : SBuf) : Bytes := sb.mem.take sb.len

end SBuf

/-- `realloc`; a new byte is `junk`. -/
def realloc (junk : BitVec 8) (mem : Bytes) (n : ℕ) : Bytes :=
  mem.take n ++ List.replicate (n - mem.length) junk

theorem length_realloc (junk : BitVec 8) (mem : Bytes) (n : ℕ) :
    (realloc junk mem n).length = n := by
  rw [realloc, length_append, length_take, length_replicate]
  omega

variable (junk : BitVec 8)

/-- `kp_buf_more(sb, sz)` -/
def kpBufMore (sb : SBuf) (sz : ℕ) : SBuf :=
  if sz > sb.left then
    ⟨realloc junk sb.mem (sb.len * 2), sb.len, by rw [length_realloc]; omega⟩
  else sb

/-- `p = kp_buf_need(sb, sz)`: the writer begins again at `b`. -/
def kpBufNeed (sb : SBuf) (sz : ℕ) : SBuf :=
  ⟨if sz > sb.mem.length then realloc junk sb.mem sz else sb.mem, 0, Nat.zero_le _⟩

/-- Room is made for a record, which is written then. -/
inductive Reserve where
  | need (sz : ℕ)
  | more (sz : ℕ)

structure Record where
  reserves : List Reserve
  bytes : Bytes

def reserve (sb : SBuf) : Reserve → SBuf
  | .need sz => kpBufNeed junk sb sz
  | .more sz => kpBufMore junk sb sz

/-- Bytes are written at `p`, or outside of the buffer. -/
def write (sb : SBuf) (bytes : Bytes) : Option SBuf :=
  if h : bytes.length ≤ sb.left then
    some ⟨sb.written ++ bytes ++ sb.mem.drop (sb.len + bytes.length), sb.len + bytes.length, by
      have := sb.len_le
      simp only [SBuf.written, SBuf.left, List.length_append, List.length_take,
        List.length_drop] at h ⊢
      omega⟩
  else none

def record (sb : SBuf) (r : Record) : Option SBuf :=
  write (r.reserves.foldl (reserve junk) sb) r.bytes

/-- The records one after the other, until one is written outside of the buffer. -/
def run (rs : List Record) (sb : SBuf) : Option SBuf := rs.foldlM (record junk) sb

/-! ## The records of the dump -/

section records

variable (be strip : Bool)

/-- `bcwrite_ktabk(ctx, o, narrow)` -/
def ktabkRecord (o : Val Bytes) : Record :=
  ⟨.more (1 + 10) :: (match o with | .str str => [.more (5 + str.length)] | _ => []),
    bcwriteKtabk be o⟩

/-- `bcwrite_ktab(ctx, p, t)` without the number of slots. -/
def ktabRecords (t : Tab Bytes) : List Record :=
  (t.array.take (narrayOf t.array t.asize)).map (ktabkRecord be) ++
    (usedNodes t).flatMap fun n => [ktabkRecord be n.key, ktabkRecord be n.val]

/-- `bcwrite_kgc(ctx, pt)`; the number of slots of a table is written where its type is. -/
def kgcRecords : Kgc (Tab Bytes) → List Record
  | .nil => []
  | .str s rest =>
    ⟨[.more (5 + s.length)], bcwriteUint32 be (bcdumpKgcStr + s.length) ++ s⟩ :: kgcRecords rest
  | .tab t rest =>
    ⟨[.more (1 + 2 * 5)], bcwriteUint32 be bcdumpKgcTab ++
      (bcwriteUint32 be (narrayOf t.array t.asize) ++ bcwriteUint32 be (usedNodes t).length)⟩ ::
        (ktabRecords be t ++ kgcRecords rest)
  | .child _ rest => ⟨[.more 1], bcwriteUint32 be bcdumpKgcChild⟩ :: kgcRecords rest

/-- `bcwrite_knum(ctx, pt)` -/
def knumRecord (kn : List Number) : Record := ⟨[.more (10 * kn.length)], bcwriteKnum be kn⟩

/-- The header of a prototype, its instructions and upvalues. The source leaves four bytes free in
front and writes the size of the body there at the end; here it is there from the beginning. -/
def headRecord (hd : ProtoHead) (kgc : Kgc (Tab Bytes)) : Record :=
  ⟨[.need (5 + 4 + 6 * 5 + (hd.bc.length - 1) * 4 + hd.uv.length * 2)],
    bcwriteUint32 be (bcwriteBody be strip hd kgc).length ++
    ([hd.flags &&& (protoChild ||| protoVararg ||| protoFfi)] ++ ([hd.numparams] ++
      ([hd.framesize] ++ ([BitVec.ofNat 8 hd.uv.length] ++
        (bcwriteUint32 be kgc.size ++ (bcwriteUint32 be hd.kn.length ++
          (bcwriteUint32 be (hd.bc.length - 1) ++ (bcwriteDbgHead be strip hd ++
            (bcwriteBytecode be hd.bc ++ hd.uv.flatMap (fun u => memBytes be 2 u.toNat)))))))))) ⟩

/-- The block of debug information. -/
def dbgRecords (hd : ProtoHead) : List Record :=
  match writtenDbg strip hd with
  | none => []
  | some d => [⟨[.more d.block.length], d.block⟩]

/-- `bcwrite_proto(ctx, pt)` for `pt` itself. -/
def bodyRecords (hd : ProtoHead) (kgc : Kgc (Tab Bytes)) : List Record :=
  headRecord be strip hd kgc :: (kgcRecords be kgc ++ knumRecord be hd.kn :: dbgRecords strip hd)

mutual

/-- `bcwrite_proto(ctx, pt)` -/
def protoRecords : Proto (Tab Bytes) → List Record
  | .mk hd kgc =>
    (if hd.flags &&& protoChild ≠ 0 then childRecords kgc else []) ++ bodyRecords be strip hd kgc

/-- The loop over the children, from `k - 1` downwards. -/
def childRecords : Kgc (Tab Bytes) → List Record
  | .nil => []
  | .str _ rest => childRecords rest
  | .tab _ rest => childRecords rest
  | .child pt rest => childRecords rest ++ protoRecords pt

end

/-- `kp_bcwrite(pt, writer, data, strip)` from `bcwrite_header` on. -/
def bcwriteRecords (chunkname : Bytes) (pt : Proto (Tab Bytes)) : List Record :=
  ⟨[.need (5 + 5 + chunkname.length)], bcwriteHeader be strip chunkname⟩ :: protoRecords be strip pt

end records

/-! ## Sizes -/

/-- What happens to the buffer as far as sizes go. -/
inductive Size where
  | reserve (r : Reserve)
  | write (n : ℕ)

def Record.sizes (r : Record) : List Size := r.reserves.map .reserve ++ [.write r.bytes.length]

/-- There is room for all that is written behind the first `len` of `cap` bytes. A call that does
not find the room it asks for makes the buffer twice as large as what is written, which may be less
than it was. -/
def Stays : ℕ → ℕ → List Size → Prop
  | _, _, [] => True
  | cap, _, .reserve (.need sz) :: rest => Stays (max cap sz) 0 rest
  | cap, len, .reserve (.more sz) :: rest =>
    Stays (if sz ≤ cap - len then cap else len * 2) len rest
  | cap, len, .write n :: rest => len + n ≤ cap ∧ Stays cap (len + n) rest

instance : ∀ (cap len : ℕ) (l : List Size), Decidable (Stays cap len l)
  | _, _, [] => inferInstanceAs (Decidable True)
  | _, _, .reserve (.need _) :: rest => instDecidableStays _ _ rest
  | _, _, .reserve (.more _) :: rest => instDecidableStays _ _ rest
  | cap, len, .write n :: rest =>
    have : Decidable (Stays cap (len + n) rest) := instDecidableStays _ _ rest
    inferInstanceAs (Decidable (len + n ≤ cap ∧ _))

/-! ### The sizes of a dump -/

def ktabkSizes : Val Bytes → List Size
  | .str str =>
    [.reserve (.more (1 + 10)), .reserve (.more (5 + str.length)), .write (4 + str.length)]
  | .num _ => [.reserve (.more (1 + 10)), .write 12]
  | _ => [.reserve (.more (1 + 10)), .write 4]

def ktabSizes (t : Tab Bytes) : List Size :=
  (t.array.take (narrayOf t.array t.asize)).flatMap ktabkSizes ++
    (usedNodes t).flatMap fun n => ktabkSizes n.key ++ ktabkSizes n.val

def kgcSizes : Kgc (Tab Bytes) → List Size
  | .nil => []
  | .str s rest => .reserve (.more (5 + s.length)) :: .write (4 + s.length) :: kgcSizes rest
  | .tab t rest => .reserve (.more (1 + 2 * 5)) :: .write 12 :: (ktabSizes t ++ kgcSizes rest)
  | .child _ rest => .reserve (.more 1) :: .write 4 :: kgcSizes rest

section sizes

variable (strip : Bool)

/-- The size of the debug information, and the line range when there is some. -/
def dbgHeadSize (hd : ProtoHead) : ℕ :=
  if strip then 0 else if (writtenDbg strip hd).isSome then 12 else 4

def dbgSizes (hd : ProtoHead) : List Size :=
  match writtenDbg strip hd with
  | none => []
  | some d => [.reserve (.more d.block.length), .write d.block.length]

def bodySizes (hd : ProtoHead) (kgc : Kgc (Tab Bytes)) : List Size :=
  .reserve (.need (5 + 4 + 6 * 5 + (hd.bc.length - 1) * 4 + hd.uv.length * 2)) ::
    .write (20 + dbgHeadSize strip hd + (hd.bc.length - 1) * 4 + hd.uv.length * 2) ::
      (kgcSizes kgc ++ (.reserve (.more (10 * hd.kn.length)) :: .write (8 * hd.kn.length) ::
        dbgSizes strip hd))

mutual

def protoSizes : Proto (Tab Bytes) → List Size
  | .mk hd kgc =>
    (if hd.flags &&& protoChild ≠ 0 then childSizes kgc else []) ++ bodySizes strip hd kgc

def childSizes : Kgc (Tab Bytes) → List Size
  | .nil => []
  | .str _ rest => childSizes rest
  | .tab _ rest => childSizes rest
  | .child pt rest => childSizes rest ++ protoSizes pt

end

end sizes

section lengths

variable (be strip : Bool)

@[simp]
theorem length_bcwriteUint32 (v : ℕ) : (bcwriteUint32 be v).length = 4 := length_memBytes ..

theorem sizes_ktabkRecord (o : Val Bytes) : (ktabkRecord be o).sizes = ktabkSizes o := by
  cases o <;> simp [ktabkRecord, Record.sizes, ktabkSizes, bcwriteKtabk, length_memBytes]

theorem sizes_ktabRecords (t : Tab Bytes) :
    (ktabRecords be t).flatMap Record.sizes = ktabSizes t := by
  rw [ktabRecords, ktabSizes, flatMap_append, flatMap_map, flatMap_assoc]
  simp [sizes_ktabkRecord]

theorem sizes_kgcRecords (kgc : Kgc (Tab Bytes)) :
    (kgcRecords be kgc).flatMap Record.sizes = kgcSizes kgc := by
  match kgc with
  | .nil => rfl
  | .str s rest => simp [kgcRecords, kgcSizes, Record.sizes, sizes_kgcRecords rest]
  | .tab t rest =>
    simp [kgcRecords, kgcSizes, Record.sizes, sizes_kgcRecords rest, sizes_ktabRecords]
  | .child _ rest => simp [kgcRecords, kgcSizes, Record.sizes, sizes_kgcRecords rest]

theorem length_flatMap_memBytes {w : ℕ} (l : List (BitVec w)) (n : ℕ) :
    (l.flatMap fun i => memBytes be n i.toNat).length = l.length * n := by
  simp [length_flatMap, length_memBytes]

theorem length_bcwriteDbgHead (hd : ProtoHead) :
    (bcwriteDbgHead be strip hd).length = dbgHeadSize strip hd := by
  rw [bcwriteDbgHead, dbgHeadSize]
  cases strip
  · cases writtenDbg false hd <;> simp
  · rfl

theorem sizes_bodyRecords (hd : ProtoHead) (kgc : Kgc (Tab Bytes)) :
    (bodyRecords be strip hd kgc).flatMap Record.sizes = bodySizes strip hd kgc := by
  have hhead : (headRecord be strip hd kgc).bytes.length =
      20 + dbgHeadSize strip hd + (hd.bc.length - 1) * 4 + hd.uv.length * 2 := by
    simp only [headRecord, bcwriteBytecode, length_append, length_bcwriteUint32, length_singleton,
      length_bcwriteDbgHead, length_flatMap_memBytes, length_tail]
    omega
  have hknum : (bcwriteKnum be hd.kn).length = 8 * hd.kn.length := by
    rw [bcwriteKnum, length_flatMap_memBytes, Nat.mul_comm]
  have hdbg : (dbgRecords strip hd).flatMap Record.sizes = dbgSizes strip hd := by
    rw [dbgRecords, dbgSizes]
    split <;> simp [Record.sizes]
  rw [bodyRecords, bodySizes, flatMap_cons, flatMap_append, flatMap_cons, sizes_kgcRecords, hdbg,
    Record.sizes, hhead]
  simp [headRecord, knumRecord, Record.sizes, hknum]

mutual

theorem sizes_protoRecords : ∀ pt : Proto (Tab Bytes),
    (protoRecords be strip pt).flatMap Record.sizes = protoSizes strip pt
  | .mk hd kgc => by
    rw [protoRecords, protoSizes, flatMap_append, sizes_bodyRecords]
    split
    · rw [sizes_childRecords kgc]
    · rfl

theorem sizes_childRecords : ∀ kgc : Kgc (Tab Bytes),
    (childRecords be strip kgc).flatMap Record.sizes = childSizes strip kgc
  | .nil => rfl
  | .str _ rest | .tab _ rest => sizes_childRecords rest
  | .child pt rest => by
    rw [childRecords, childSizes, flatMap_append, sizes_childRecords rest, sizes_protoRecords pt]

end

end lengths

/-! ## The room for the records -/

variable {junk} {sb sb' : SBuf} {r : Record} {rs : List Record}

theorem written_kpBufMore (sb : SBuf) (sz : ℕ) : (kpBufMore junk sb sz).written = sb.written := by
  rw [kpBufMore]
  split
  · have hlen := sb.len_le
    have htake : sb.len ≤ (sb.mem.take (sb.len * 2)).length := by
      rw [length_take]
      omega
    change (realloc junk sb.mem (sb.len * 2)).take sb.len = sb.mem.take sb.len
    rw [realloc, take_append_of_le_length htake, take_take, Nat.min_eq_left (by omega)]
  · rfl

/-- The buffer with which `kp_bcwrite` begins. -/
def start : SBuf := ⟨List.replicate 1024 0, 0, Nat.zero_le _⟩

section pieces

variable (junk) (be strip : Bool)

theorem kgcRecords_bytes : ∀ kgc : Kgc (Tab Bytes),
    (kgcRecords be kgc).flatMap Record.bytes = bcwriteKgc be kgc
  | .nil => rfl
  | .str s rest => by rw [kgcRecords, flatMap_cons, kgcRecords_bytes rest, bcwriteKgc]
  | .tab t rest => by
    have hktab : (ktabRecords be t).flatMap Record.bytes =
        (t.array.take (narrayOf t.array t.asize)).flatMap (bcwriteKtabk be) ++
          (usedNodes t).flatMap fun n => bcwriteKtabk be n.key ++ bcwriteKtabk be n.val := by
      rw [ktabRecords, flatMap_append, flatMap_map, flatMap_assoc]
      simp [ktabkRecord]
    rw [kgcRecords, flatMap_cons, flatMap_append, kgcRecords_bytes rest, hktab, bcwriteKgc,
      bcwriteKtab]
    simp only [append_assoc]
  | .child _ rest => by rw [kgcRecords, flatMap_cons, kgcRecords_bytes rest, bcwriteKgc]

/-- The records of a prototype are its body behind the length. -/
theorem bodyRecords_bytes (hd : ProtoHead) (kgc : Kgc (Tab Bytes)) :
    (bodyRecords be strip hd kgc).flatMap Record.bytes =
      bcwriteUint32 be (bcwriteBody be strip hd kgc).length ++ bcwriteBody be strip hd kgc := by
  have hdbg : (dbgRecords strip hd).flatMap Record.bytes = bcwriteDbg strip hd := by
    rw [dbgRecords, bcwriteDbg]
    split <;> simp [*]
  rw [bodyRecords, flatMap_cons, flatMap_append, flatMap_cons, kgcRecords_bytes, hdbg,
    headRecord, knumRecord]
  conv_rhs =>
    rhs
    rw [bcwriteBody]
  simp only [append_assoc]

/-- The record is written behind what the buffer holds. -/
def Record.Appends (r : Record) : Prop := ∀ c ∈ r.reserves, ∃ sz, c = .more sz

/-- What is written when the records stay inside of the buffer, whatever it holds before. -/
def Hands (rs : List Record) (bytes : Bytes) : Prop :=
  ∀ sb, ∀ sb' ∈ run junk rs sb, sb'.written = bytes

theorem written_write {bytes : Bytes} (h : write sb bytes = some sb') :
    sb'.written = sb.written ++ bytes := by
  rw [write] at h
  split at h
  · cases h
    have hlen : sb.written.length = sb.len := length_take.trans (Nat.min_eq_left sb.len_le)
    exact take_left' (by rw [length_append, hlen])
  · cases h

theorem written_reserves {reserves : List Reserve} (hmore : ∀ c ∈ reserves, ∃ sz, c = .more sz) :
    (reserves.foldl (reserve junk) sb).written = sb.written := by
  induction reserves generalizing sb with
  | nil => rfl
  | cons c cs ih =>
    obtain ⟨⟨sz, rfl⟩, hcs⟩ := forall_mem_cons.mp hmore
    exact (ih hcs).trans (written_kpBufMore sb sz)

theorem written_run (hrs : ∀ r ∈ rs, r.Appends) (h : run junk rs sb = some sb') :
    sb'.written = sb.written ++ rs.flatMap Record.bytes := by
  induction rs generalizing sb with
  | nil =>
    cases h
    exact (append_nil _).symm
  | cons r rs ih =>
    obtain ⟨hr, hrs⟩ := forall_mem_cons.mp hrs
    obtain ⟨sb₁, hrecord, h⟩ := Option.bind_eq_some_iff.mp h
    rw [ih hrs h, written_write hrecord, written_reserves junk hr, flatMap_cons, append_assoc]

theorem hands_need {sz : ℕ} {bytes : Bytes} (hrs : ∀ r ∈ rs, r.Appends) :
    Hands junk (⟨[.need sz], bytes⟩ :: rs) (bytes ++ rs.flatMap Record.bytes) := by
  intro sb sb' h
  obtain ⟨sb₁, hrecord, h⟩ := Option.bind_eq_some_iff.mp h
  rw [written_run junk hrs h, written_write hrecord]
  rfl

theorem appends_kgcRecords : ∀ kgc : Kgc (Tab Bytes), ∀ r ∈ kgcRecords be kgc, r.Appends
  | .nil => by simp [kgcRecords]
  | .str _ rest => forall_mem_cons.mpr ⟨by simp [Record.Appends], appends_kgcRecords rest⟩
  | .tab t rest => by
    have hktabk (o : Val Bytes) : (ktabkRecord be o).Appends := by
      cases o <;> simp [Record.Appends, ktabkRecord]
    refine forall_mem_cons.mpr ⟨by simp [Record.Appends], forall_mem_append.mpr
      ⟨fun r hr => ?_, appends_kgcRecords rest⟩⟩
    rw [ktabRecords, mem_append, mem_map, mem_flatMap] at hr
    rcases hr with ⟨o, -, rfl⟩ | ⟨n, -, hr⟩
    · exact hktabk o
    · rcases mem_pair.mp hr with rfl | rfl
      · exact hktabk n.key
      · exact hktabk n.val
  | .child _ rest => forall_mem_cons.mpr ⟨by simp [Record.Appends], appends_kgcRecords rest⟩

theorem hands_body (hd : ProtoHead) (kgc : Kgc (Tab Bytes)) :
    Hands junk (bodyRecords be strip hd kgc)
    (bcwriteUint32 be (bcwriteBody be strip hd kgc).length ++ bcwriteBody be strip hd kgc) := by
  rw [← bodyRecords_bytes]
  refine hands_need junk (forall_mem_append.mpr ⟨appends_kgcRecords be kgc, forall_mem_cons.mpr
    ⟨by simp [Record.Appends, knumRecord], ?_⟩⟩)
  rw [dbgRecords]
  split <;> simp [Record.Appends]

/-- The records fall into pieces that are handed over one by one. -/
def Pieces (rs : List Record) (bytes : List Bytes) : Prop :=
  ∃ ps : List (List Record), rs = ps.flatten ∧ List.Forall₂ (Hands junk) ps bytes

theorem Pieces.append {rs rs' : List Record} {bytes bytes' : List Bytes} (h : Pieces junk rs bytes)
    (h' : Pieces junk rs' bytes') : Pieces junk (rs ++ rs') (bytes ++ bytes') := by
  obtain ⟨ps, rfl, hps⟩ := h
  obtain ⟨ps', rfl, hps'⟩ := h'
  exact ⟨ps ++ ps', flatten_append.symm, rel_append hps hps'⟩

theorem Pieces.one {bytes : Bytes} (h : Hands junk rs bytes) : Pieces junk rs [bytes] :=
  ⟨[rs], (append_nil rs).symm, .cons h .nil⟩

mutual

theorem pieces_proto : ∀ pt : Proto (Tab Bytes), Pieces junk (protoRecords be strip pt)
    ((bcwriteProto be strip pt).map fun b => bcwriteUint32 be b.length ++ b)
  | .mk hd kgc => by
    rw [protoRecords, bcwriteProto, map_append]
    refine .append junk ?_ (.one junk (hands_body junk be strip hd kgc))
    split
    · exact pieces_children kgc
    · exact ⟨[], rfl, .nil⟩

theorem pieces_children : ∀ kgc : Kgc (Tab Bytes), Pieces junk (childRecords be strip kgc)
    ((bcwriteChildren be strip kgc).map fun b => bcwriteUint32 be b.length ++ b)
  | .nil => ⟨[], rfl, .nil⟩
  | .str _ rest | .tab _ rest => pieces_children rest
  | .child pt rest => by
    rw [childRecords, bcwriteChildren, map_append]
    exact .append junk (pieces_children rest) (pieces_proto pt)

end

/-- **The dump** is what the pieces hand to the writer, and the footer, when all stay inside of the
buffer. -/
theorem handed_over (chunkname : Bytes) (pt : Proto (Tab Bytes)) : ∃ bytes : List Bytes,
    Pieces junk (bcwriteRecords be strip chunkname pt) bytes ∧
      bytes.flatten ++ [0] = kpBcwrite be strip chunkname pt := by
  have hheader : Hands junk [⟨[.need (5 + 5 + chunkname.length)], bcwriteHeader be strip chunkname⟩]
      (bcwriteHeader be strip chunkname) := fun sb sb' h => by
    rw [hands_need junk (by simp) sb sb' h, flatMap_nil, append_nil]
  refine ⟨_, .append junk (.one junk hheader) (pieces_proto junk be strip pt), ?_⟩
  rw [flatten_append, flatten_singleton, kpBcwrite, bcwriteFrames, append_assoc, flatMap_def]

end pieces

end Ktap.BcBuffer
