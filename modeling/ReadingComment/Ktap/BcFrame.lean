import ReadingComment.Ktap.BcCodec

/-!
# Framing of a dump

`kp_bcwrite` puts a 4-byte length in front of every body and one zero byte at
the end; the prototype loop of `kp_bcread` takes a zero byte in the place of a
length for the end of the dump. The first byte of a length can be zero too: on a
little-endian host when the length is a multiple of 256, on a big-endian one
when it is below `2^24`. `protoLoop_frames` and `protoLoop_early` say what the
loop does in the two cases, for any bodies and any reader that reads of each
body exactly its bytes.
-/

namespace Ktap

open Codec List

variable {S : Type}

/-- The first byte of the length `n` in memory is not zero. -/
def LengthMarked (be : Bool) (n : ℕ) : Prop := if be then 2 ^ 24 ≤ n else n % 256 ≠ 0

instance (be : Bool) (n : ℕ) : Decidable (LengthMarked be n) := by
  unfold LengthMarked
  infer_instance

theorem head?_bcwriteUint32 (be : Bool) {n : ℕ} (hn : n < 2 ^ 32) (rest : Bytes) :
    (bcwriteUint32 be n ++ rest).head? = some 0 ↔ ¬ LengthMarked be n := by
  have hbyte : ∀ v : ℕ, BitVec.ofNat 8 v = 0 ↔ v % 256 = 0 := by
    intro v
    rw [← BitVec.toNat_inj, BitVec.toNat_ofNat]
    rfl
  cases be
  · simp only [bcwriteUint32, memBytes, leBytes, LengthMarked, Bool.false_eq_true, if_false,
      cons_append, head?_cons, Option.some.injEq, hbyte, not_not]
  · simp only [bcwriteUint32, memBytes, leBytes, LengthMarked, if_true, reverse_cons,
      reverse_nil, nil_append, cons_append, head?_cons, Option.some.injEq,
      hbyte]
    omega

/-- **Step lemma** of the prototype loop: a body whose length starts with a byte other than zero
is handed to the body reader with its length. -/
theorem protoLoop_step {be : Bool} {body : ℤ → Cursor S → Except ReadErr (Cursor S)}
    {b rest : Bytes} {s s' : S} (hpos : b ≠ []) (hlen : b.length < 2 ^ 31)
    (hmark : LengthMarked be b.length)
    (hbody : body b.length ⟨b ++ rest, s⟩ = .ok ⟨rest, s'⟩) (fuel : ℕ) :
    protoLoop be body (fuel + 1) ⟨bcwriteUint32 be b.length ++ b ++ rest, s⟩ =
      protoLoop be body fuel ⟨rest, s'⟩ := by
  have hhead : ¬ (bcwriteUint32 be b.length ++ (b ++ rest)).head? = some 0 := by
    rw [head?_bcwriteUint32 be (by omega)]
    exact not_not.mpr hmark
  have hne : BitVec.ofNat 32 b.length ≠ 0 := by
    intro h0
    have := congrArg BitVec.toNat h0
    rw [BitVec.toNat_ofNat, Nat.mod_eq_of_lt (by omega)] at this
    exact hpos (length_eq_zero_iff.mp this)
  have hint : (BitVec.ofNat 32 b.length).toInt = b.length := toInt_ofNat_of_lt hlen
  rw [append_assoc, protoLoop, if_neg hhead, bcreadUint32_reads be b.length s]
  simp only [if_neg hne, hint, hbody]

theorem protoLoop_stop {be : Bool} {body : ℤ → Cursor S → Except ReadErr (Cursor S)}
    {input : Bytes} {s : S} (h : input.head? = some 0) (fuel : ℕ) :
    protoLoop be body (fuel + 1) ⟨input, s⟩ = .ok ⟨input.tail, s⟩ := by
  rw [protoLoop, if_pos h]

section frames

variable {be : Bool} {body : ℤ → Cursor S → Except ReadErr (Cursor S)} {bodies : List Bytes}
  {s s' : S}

theorem bcwriteFrames_cons (be : Bool) (b : Bytes) (bodies : List Bytes) :
    bcwriteFrames be (b :: bodies) =
      bcwriteUint32 be b.length ++ b ++ bcwriteFrames be bodies := by
  simp [bcwriteFrames]

section

variable (hread : BodiesRead body s bodies s') (hpos : ∀ b ∈ bodies, b ≠ [])
  (hlen : ∀ b ∈ bodies, b.length < 2 ^ 31)

include hread hpos hlen

/-- **Run lemma**: when every length starts with a byte other than zero, the loop reads all the
bodies and stops at the footer. -/
theorem protoLoop_frames (hmark : ∀ b ∈ bodies, LengthMarked be b.length) {fuel : ℕ}
    (hfuel : bodies.length < fuel) :
    protoLoop be body fuel ⟨bcwriteFrames be bodies, s⟩ = .ok ⟨[], s'⟩ := by
  induction hread generalizing fuel with
  | nil s =>
    obtain ⟨fuel, rfl⟩ : ∃ m, fuel = m + 1 := ⟨fuel - 1, by omega⟩
    exact protoLoop_stop rfl fuel
  | @cons s s₁ s₂ b bodies hb hread ih =>
    obtain ⟨fuel, rfl⟩ : ∃ m, fuel = m + 1 := ⟨fuel - 1, by omega⟩
    have hmem : b ∈ b :: bodies := mem_cons_self ..
    rw [bcwriteFrames_cons, protoLoop_step (hpos b hmem) (hlen b hmem) (hmark b hmem) (hb _)]
    exact ih (fun b' h => hpos b' (mem_cons_of_mem _ h))
      (fun b' h => hlen b' (mem_cons_of_mem _ h))
      (fun b' h => hmark b' (mem_cons_of_mem _ h)) (by simpa using hfuel)

/-- When some length starts with a zero byte, the loop takes that byte for the end of the dump and
leaves bytes behind. -/
theorem protoLoop_early (hmark : ¬ ∀ b ∈ bodies, LengthMarked be b.length) {fuel : ℕ}
    (hfuel : bodies.length < fuel) :
    ∃ c, protoLoop be body fuel ⟨bcwriteFrames be bodies, s⟩ = .ok c ∧ c.input ≠ [] := by
  induction hread generalizing fuel with
  | nil s => exact absurd (fun b hb => by cases hb) hmark
  | @cons s s₁ s₂ b bodies hb hread ih =>
    obtain ⟨fuel, rfl⟩ : ∃ m, fuel = m + 1 := ⟨fuel - 1, by omega⟩
    have hmem : b ∈ b :: bodies := mem_cons_self ..
    rw [bcwriteFrames_cons]
    by_cases hm : LengthMarked be b.length
    · rw [protoLoop_step (hpos b hmem) (hlen b hmem) hm (hb _)]
      refine ih (fun b' h => hpos b' (mem_cons_of_mem _ h))
        (fun b' h => hlen b' (mem_cons_of_mem _ h)) ?_ (by simpa using hfuel)
      intro hall
      refine hmark fun b' hb' => ?_
      rcases mem_cons.mp hb' with rfl | hb'
      · exact hm
      · exact hall b' hb'
    · -- the length of `b` itself is taken for the footer
      have hlt : b.length < 2 ^ 31 := hlen b hmem
      rw [append_assoc, protoLoop_stop ((head?_bcwriteUint32 be (by omega) _).mpr hm)]
      refine ⟨_, rfl, ?_⟩
      have hne : b.length ≠ 0 := by simpa using hpos b hmem
      have htail :
          (bcwriteUint32 be b.length ++ (b ++ bcwriteFrames be bodies)).tail.length ≠ 0 := by
        simp only [length_tail, length_append, bcwriteUint32, length_memBytes]
        omega
      exact fun h0 => htail (congrArg List.length h0)

end

theorem length_le_bcwriteFrames (be : Bool) (bodies : List Bytes) :
    bodies.length < (bcwriteFrames be bodies).length ∧
      ∀ b ∈ bodies, b.length < (bcwriteFrames be bodies).length := by
  induction bodies with
  | nil => exact ⟨by simp [bcwriteFrames], fun b hb => by cases hb⟩
  | cons b bodies ih =>
    obtain ⟨hcount, hlen⟩ := ih
    have hcons : (bcwriteFrames be (b :: bodies)).length =
        4 + b.length + (bcwriteFrames be bodies).length := by
      rw [bcwriteFrames_cons, length_append, length_append, bcwriteUint32,
        length_memBytes]
    rw [hcons, length_cons]
    refine ⟨by omega, fun b' hb' => ?_⟩
    rcases mem_cons.mp hb' with rfl | hb'
    · omega
    · have := hlen b' hb'
      omega

end frames

/-! ## The header -/

theorem expectByte_reads (b : BitVec 8) (s : S) : Reads (expectByte b) [b] s () s := by
  intro rest
  rw [expectByte, (bcreadByte_reads b s).run_bind, if_neg (not_not.mpr rfl)]
  rfl

theorem bcreadHeader_left {be strip : Bool} {chunkname rest : Bytes} {strs : Finset Bytes} {s : S}
    {r : BitVec 8 × Bytes × Finset Bytes} {c : Cursor S}
    (hlen : strip = false → chunkname.length < 2 ^ 31)
    (h : bcreadHeader be strs ⟨bcwriteHeader be strip chunkname ++ rest, s⟩ = .ok (r, c)) :
    c = ⟨rest, s⟩ := by
  set fl : BitVec 8 := (if strip then bcdumpFStrip else 0) + (if be then bcdumpFBe else 0) with hfl
  set name : Bytes := if strip then [] else bcwriteUint32 be chunkname.length ++ chunkname
    with hname
  have hsplit : bcwriteHeader be strip chunkname ++ rest = [bcdumpHead1] ++ ([bcdumpHead2] ++
      ([bcdumpHead3] ++ ([bcdumpVersion] ++ ([fl] ++ (name ++ rest))))) := by
    simp [bcwriteHeader, hfl, hname]
  have hknown : fl &&& ~~~bcdumpFKnown = 0 := by
    rw [hfl]
    cases strip <;> cases be <;> decide
  have hffi : fl &&& bcdumpFFfi = 0 := by
    rw [hfl]
    cases strip <;> cases be <;> decide
  rw [hsplit, bcreadHeader, (expectByte_reads _ s).run_bind, (expectByte_reads _ s).run_bind,
    (expectByte_reads _ s).run_bind, (expectByte_reads _ s).run_bind,
    (bcreadByte_reads fl s).run_bind, if_neg (not_not.mpr hknown), if_neg (not_not.mpr hffi)] at h
  cases strip with
  | true =>
    have hstrip : fl &&& bcdumpFStrip ≠ 0 := by
      rw [hfl]
      cases be <;> decide
    rw [if_pos hstrip] at h
    simp only [hname, if_true, nil_append] at h
    rw [pure_bind] at h
    cases hnew : kpStrNew strs ("striped".toUTF8.toList.map UInt8.toBitVec) with
    | none =>
      rw [hnew] at h
      cases h
    | some strs' =>
      rw [hnew] at h
      exact (congrArg Prod.snd (Except.ok.inj h)).symm
  | false =>
    have hstrip : ¬ (fl &&& bcdumpFStrip ≠ 0) := by
      rw [hfl]
      cases be <;> decide
    have hsize : (BitVec.ofNat 32 chunkname.length).toNat = chunkname.length := by
      have := hlen rfl
      rw [BitVec.toNat_ofNat]
      exact Nat.mod_eq_of_lt (by omega)
    rw [if_neg hstrip, hname, if_neg Bool.false_ne_true, append_assoc] at h
    beta_reduce at h
    rw [(bcreadUint32_reads be chunkname.length s).run_bind, hsize,
      (bcreadMem_reads chunkname s).run_bind] at h
    cases hnew : kpStrNew strs chunkname with
    | none =>
      rw [hnew] at h
      cases h
    | some strs' =>
      rw [hnew] at h
      exact (congrArg Prod.snd (Except.ok.inj h)).symm

/-! ## The whole dump -/

/-- **Framing**: of any list of non-empty bodies, in a dump whose size is an `int`, the prototype
loop reads exactly these bodies and stops at the footer if and only if no length starts with a
zero byte. `c` is the cursor after the header. -/
theorem protoLoop_reads_frames_iff {be strip : Bool} {chunkname : Bytes} {bodies : List Bytes}
    (hpos : ∀ b ∈ bodies, b ≠ [])
    (hint : (bcwriteHeader be strip chunkname ++ bcwriteFrames be bodies).length < 2 ^ 31)
    {body : ℤ → Cursor S → Except ReadErr (Cursor S)} {s s' : S}
    (hread : BodiesRead body s bodies s') {strs : Finset Bytes}
    {r : BitVec 8 × Bytes × Finset Bytes} {c : Cursor S}
    (hheader : bcreadHeader be strs
      ⟨bcwriteHeader be strip chunkname ++ bcwriteFrames be bodies, s⟩ = .ok (r, c)) :
    protoLoop be body (c.input.length + 1) c = .ok ⟨[], s'⟩ ↔
      ∀ b ∈ bodies, LengthMarked be b.length := by
  obtain ⟨hcount, hframe⟩ := length_le_bcwriteFrames be bodies
  have hc : c = ⟨bcwriteFrames be bodies, s⟩ := by
    refine bcreadHeader_left (fun hs => ?_) hheader
    subst hs
    simp only [bcwriteHeader, List.length_append, if_neg Bool.false_ne_true] at hint
    omega
  have hlen : ∀ b ∈ bodies, b.length < 2 ^ 31 := by
    intro b hb
    have := hframe b hb
    rw [List.length_append] at hint
    omega
  subst hc
  constructor
  · intro hloop
    by_contra hmark
    obtain ⟨c, hearly, hleft⟩ := protoLoop_early hread hpos hlen hmark
      (show bodies.length < (bcwriteFrames be bodies).length + 1 by omega)
    rw [hearly] at hloop
    exact hleft (congrArg Cursor.input (Except.ok.inj hloop))
  · intro hmark
    exact protoLoop_frames hread hpos hlen hmark (Nat.lt_succ_of_lt hcount)

/-- The body of a function of `n` instructions without constants. -/
def leafBody (n : ℕ) : Bytes := bcwriteBody false false (retHead 0 n) .nil

theorem length_leafBody (n : ℕ) : (leafBody n).length = 5 * n + 29 := by
  have hbc : (bcwriteBytecode false (retHead 0 n).bc).length = 4 * n := by
    simp [bcwriteBytecode, retHead, Nat.mul_comm]
  have hdbg : writtenDbg false (retHead 0 n) = some ⟨1, 0, List.replicate n 0 ++ [0], n, n⟩ := by
    simp [writtenDbg, retHead]
  simp only [leafBody, bcwriteBody, length_append, hbc, bcwriteDbgHead, bcwriteDbg, hdbg]
  simp [bcwriteUint32, bcwriteKgc, bcwriteKnum, retHead]
  omega

theorem bodiesRead_leaf {n : ℕ} (hn : n < 2 ^ 26) :
    ∃ pt', BodiesRead (bcreadBody hostCtx ktapStackSize) ⟨[], ∅⟩ [leafBody n] ⟨[pt'], ∅⟩ := by
  obtain ⟨pt', -, hread⟩ := bodies_proto hostCtx_ofDump (leaf_ok hn) []
    (show 0 + (leaf n).peak ≤ ktapStackSize by rw [leaf, Proto.peak, Kgc.peak]; decide)
    (show internAll ∅ (leaf n).strs = some ∅ from rfl)
  rw [leaf, bcwriteProto_eq (leaf_ok hn), bcwriteChildren, nil_append] at hread
  exact ⟨pt', hread⟩

/-- The one body of a function of three instructions is 44 bytes long and is read back. -/
theorem protoLoop_reads_leaf : ∃ pt',
    protoLoop false (bcreadBody hostCtx ktapStackSize)
      ((bcwriteFrames false [leafBody 3]).length + 1) ⟨bcwriteFrames false [leafBody 3], [], ∅⟩ =
        .ok ⟨[], [pt'], ∅⟩ := by
  obtain ⟨pt', hread⟩ := bodiesRead_leaf (show 3 < 2 ^ 26 by decide)
  have hlen := length_leafBody 3
  have hheader : bcreadHeader false ∅
      ⟨bcwriteHeader false false [0x6b] ++ bcwriteFrames false [leafBody 3], [], ∅⟩ =
        .ok ((0, [0x6b], {[0x6b]}), ⟨bcwriteFrames false [leafBody 3],
          (⟨[], ∅⟩ : ReadState)⟩) := rfl
  refine ⟨pt', (protoLoop_reads_frames_iff ?_ ?_ hread hheader).mpr ?_⟩
  · intro b hb h0
    rw [List.mem_singleton] at hb
    rw [← hb, h0] at hlen
    cases hlen
  · rw [List.length_append, bcwriteFrames_cons, List.length_append, List.length_append, hlen]
    decide
  · intro b hb
    rw [List.mem_singleton] at hb
    rw [hb, hlen]
    decide

/-- The body of a function of 199 instructions is 1024 bytes long: its length is taken for the
footer. -/
theorem protoLoop_takes_length_for_footer : (leafBody 199).length = 1024 ∧
    ∃ pt', BodiesRead (bcreadBody hostCtx ktapStackSize) ⟨[], ∅⟩ [leafBody 199] ⟨[pt'], ∅⟩ ∧
      ¬ protoLoop false (bcreadBody hostCtx ktapStackSize)
        ((bcwriteFrames false [leafBody 199]).length + 1)
        ⟨bcwriteFrames false [leafBody 199], [], ∅⟩ = .ok ⟨[], [pt'], ∅⟩ := by
  have hlen := length_leafBody 199
  obtain ⟨pt', hread⟩ := bodiesRead_leaf (show 199 < 2 ^ 26 by decide)
  refine ⟨hlen, pt', hread, fun hloop => ?_⟩
  have hmem : ∀ b ∈ [leafBody 199], b.length = 1024 := by
    intro b hb
    rw [List.mem_singleton] at hb
    rw [hb, hlen]
  have hfuel : [leafBody 199].length < (bcwriteFrames false [leafBody 199]).length + 1 := by
    have := (length_le_bcwriteFrames false [leafBody 199]).1
    omega
  obtain ⟨c, hearly, hleft⟩ := protoLoop_early hread
    (fun b hb h0 => by simpa [h0] using hmem b hb) (fun b hb => by rw [hmem b hb]; decide)
    (show ¬ ∀ b ∈ [leafBody 199], LengthMarked false b.length from fun hall =>
      absurd (hall _ (List.mem_singleton_self _)) (by rw [hlen]; decide))
    hfuel
  exact hleft (congrArg Cursor.input (Except.ok.inj (hearly.symm.trans hloop)))

end Ktap
