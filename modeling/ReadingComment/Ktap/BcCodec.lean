import ReadingComment.Ktap.BcTable
import ReadingComment.Ktap.BcBuffer

/-!
# Prototypes survive the dump

The writer emits children from the last constant down to the first, the reader fills the constants
from the first up. After the children of a prototype have been read, the stack holds them in the
order of its constants (`bodies_kgc`), and reading its constants takes these off
(`bcreadKgc_takes`). The round trip holds exactly for the trees that stay inside of the output
buffer, whose waiting prototypes (`Proto.peak`) fit the stack and whose strings (`Proto.strs`) fit
the string table.
-/

namespace Ktap

open Codec List

/-! ## Bodies one after another -/

/-- The body reader takes the state from `s` to `s'` over the bodies, reading of each exactly its
bytes. -/
inductive BodiesRead {S : Type} (body : ℤ → Cursor S → Except ReadErr (Cursor S)) :
    S → List Bytes → S → Prop where
  | nil (s : S) : BodiesRead body s [] s
  | cons {s s' s'' : S} {b : Bytes} {bs : List Bytes} :
    (∀ rest, body b.length ⟨b ++ rest, s⟩ = .ok ⟨rest, s'⟩) → BodiesRead body s' bs s'' →
    BodiesRead body s (b :: bs) s''

section bodies

variable {S : Type} {body : ℤ → Cursor S → Except ReadErr (Cursor S)}

variable {bs bs' : List Bytes}

theorem BodiesRead.append {s s' s'' : S} (h : BodiesRead body s bs s')
    (h' : BodiesRead body s' bs' s'') : BodiesRead body s (bs ++ bs') s'' := by
  induction h with
  | nil s => exact h'
  | cons hb _ ih => exact .cons hb (ih h')

theorem BodiesRead.of_append {s s' s'' : S} (h : BodiesRead body s bs s')
    (h' : BodiesRead body s (bs ++ bs') s'') : BodiesRead body s' bs' s'' := by
  induction h with
  | nil s => exact h'
  | @cons s s₁ s₂ b bs hb _ ih =>
    cases h' with
    | @cons _ s₁' _ _ _ hb' h' =>
      have hsame := (hb []).symm.trans (hb' [])
      obtain rfl : s₁ = s₁' := congrArg Cursor.st (Except.ok.inj hsame)
      exact ih h'

theorem BodiesRead.of_append_left {s s'' : S} (h : BodiesRead body s (bs ++ bs') s'') :
    ∃ s', BodiesRead body s bs s' := by
  induction bs generalizing s with
  | nil => exact ⟨s, .nil s⟩
  | cons b bs ih =>
    cases h with
    | cons hb h =>
      obtain ⟨s', hs'⟩ := ih h
      exact ⟨s', .cons hb hs'⟩

end bodies

/-! ## The trees that are written -/

def Kgc.children {τ : Type} : Kgc τ → List (Proto τ)
  | .nil => []
  | .str _ rest => rest.children
  | .tab _ rest => rest.children
  | .child pt rest => pt :: rest.children

mutual

def Proto.peak {τ : Type} : Proto τ → ℕ
  | .mk _ kgc => max kgc.peak 1

/-- The number of stack slots that reading the children of a prototype takes. -/
def Kgc.peak {τ : Type} : Kgc τ → ℕ
  | .nil => 0
  | .str _ rest => rest.peak
  | .tab _ rest => rest.peak
  | .child pt rest => max rest.peak (rest.children.length + pt.peak)

end

theorem Proto.peak_pos {τ : Type} (pt : Proto τ) : 1 ≤ pt.peak := by
  obtain ⟨hd, kgc⟩ := pt
  rw [Proto.peak]
  omega

theorem Kgc.length_children_le {τ : Type} (kgc : Kgc τ) : kgc.children.length ≤ kgc.peak := by
  match kgc with
  | .nil => exact le_refl 0
  | .str _ rest => exact rest.length_children_le
  | .tab _ rest => exact rest.length_children_le
  | .child pt rest =>
    have := pt.peak_pos
    rw [Kgc.children, Kgc.peak, length_cons]
    omega

/-- The strings among the constants of a prototype. -/
def Kgc.strs : Kgc (Tab Bytes) → List Bytes
  | .nil => []
  | .str s rest => s :: rest.strs
  | .tab t rest => tabStrs t ++ rest.strs
  | .child _ rest => rest.strs

mutual

/-- The strings of a tree, in the order in which they are read. -/
def Proto.strs : Proto (Tab Bytes) → List Bytes
  | .mk _ kgc => kgc.childStrs ++ kgc.strs

def Kgc.childStrs : Kgc (Tab Bytes) → List Bytes
  | .nil => []
  | .str _ rest => rest.childStrs
  | .tab _ rest => rest.childStrs
  | .child pt rest => rest.childStrs ++ pt.strs

end

/-- Debug information as `fs_fixup_line` and `fs_fixup_var` lay it out. -/
def Dbg.Ok (d : Dbg) (nbc sizeuv : ℕ) : Prop :=
  ∃ (lineinfo : Bytes) (names : List Bytes) (varinfo : Bytes),
    d.block = lineinfo ++ (names.flatMap (· ++ [0]) ++ varinfo) ∧
    lineinfo.length = nbc <<< lineShift d.numline ∧ names.length = sizeuv ∧
    (∀ n ∈ names, 0 ∉ n) ∧ varinfo ≠ [] ∧ d.uvinfo = lineinfo.length ∧
    d.varinfo = lineinfo.length + (names.flatMap (· ++ [0])).length ∧ d.block.length < 2 ^ 30

/-- What holds of the fields of every prototype the compiler makes: `KP_MAX_BCINS` and `BCMAX_D + 1`
are the limits that it checks. -/
structure ProtoHead.Ok (hd : ProtoHead) : Prop where
  flags : hd.flags &&& (protoChild ||| protoVararg ||| protoFfi) = hd.flags
  bc : ∃ ins, hd.bc = bcFunc hd.flags hd.framesize :: ins ∧ ins.length < 2 ^ 26
  uv : hd.uv.length < 256
  kn : hd.kn.length ≤ 65536
  dbg : ∀ d, hd.dbg = some d → d.Ok (hd.bc.length - 1) hd.uv.length

mutual

def Proto.Ok : Proto (Tab Bytes) → Prop
  | .mk hd kgc => hd.Ok ∧ kgc.Ok ∧ kgc.size ≤ 65536 ∧
      (hd.flags &&& protoChild = 0 → kgc.children = [])

/-- What holds of the constants of every prototype the compiler makes, with strings shorter than
the limit of the kernel. -/
def Kgc.Ok : Kgc (Tab Bytes) → Prop
  | .nil => True
  | .str s rest => s.length < kpMaxStr ∧ rest.Ok
  | .tab t rest => TmplOk t ∧ rest.Ok
  | .child pt rest => pt.Ok ∧ rest.Ok

end

mutual

/-- Two prototypes are the same: every field agrees (the debug information unless it was
stripped), and so do the constants, one by one. -/
inductive SameProto (strip : Bool) : Proto (Tab Bytes) → Proto (Tab Bytes) → Prop where
  | mk {hd : ProtoHead} {kgc kgc' : Kgc (Tab Bytes)} : SameKgc strip kgc kgc' →
    SameProto strip (.mk hd kgc)
      (.mk { hd with dbg := if strip then none else hd.dbg } kgc')

/-- Constants that are the same: equal strings, tables with the same content, the same
children. -/
inductive SameKgc (strip : Bool) : Kgc (Tab Bytes) → Kgc (Tab Bytes) → Prop where
  | nil : SameKgc strip .nil .nil
  | str {s : Bytes} {rest rest' : Kgc (Tab Bytes)} : SameKgc strip rest rest' →
    SameKgc strip (.str s rest) (.str s rest')
  | tab {t t' : Tab Bytes} {rest rest' : Kgc (Tab Bytes)} : t'.asMap = t.asMap →
    SameKgc strip rest rest' → SameKgc strip (.tab t rest) (.tab t' rest')
  | child {pt pt' : Proto (Tab Bytes)} {rest rest' : Kgc (Tab Bytes)} : SameProto strip pt pt' →
    SameKgc strip rest rest' → SameKgc strip (.child pt rest) (.child pt' rest')

end

/-- The reader runs on the host that wrote the dump, with the flags of its header. -/
def ReadCtx.OfDump (ctx : ReadCtx) (strip : Bool) : Prop :=
  ctx.flags = (if strip then bcdumpFStrip else 0) + (if ctx.be then bcdumpFBe else 0)

theorem ReadCtx.OfDump.swap {ctx : ReadCtx} {strip : Bool} (h : ctx.OfDump strip) :
    bcreadSwap ctx = false := by
  rw [bcreadSwap, h]
  cases strip <;> cases ctx.be <;> decide

theorem ReadCtx.OfDump.strip {ctx : ReadCtx} {strip : Bool} (h : ctx.OfDump strip) :
    ctx.flags &&& bcdumpFStrip ≠ 0 ↔ strip = true := by
  rw [h]
  cases strip <;> cases ctx.be <;> decide

/-! ## The fields of a body -/

section fields

variable {ctx : ReadCtx} {strip : Bool}

theorem bcreadBytecode_reads (hctx : ctx.OfDump strip) {flags framesize : BitVec 8}
    {bc ins : List (BitVec 32)} (hbc : bc = bcFunc flags framesize :: ins)
    (st : ReadState) :
    Reads (bcreadBytecode ctx flags framesize ins.length) (bcwriteBytecode ctx.be bc) st bc st := by
  have hins : Reads (readMany (bcreadWord ctx.be 4) ins.length)
      (ins.flatMap fun i => memBytes ctx.be 4 i.toNat) st ins st :=
    Reads.readMany fun i _ => bcreadWord_reads ctx.be 4 i st
  intro rest
  rw [hbc, bcreadBytecode, bcwriteBytecode, tail_cons, hins.run_bind, hctx.swap]
  rfl

theorem bcreadUv_reads (hctx : ctx.OfDump strip) (uv : List (BitVec 16))
    (st : ReadState) :
    Reads (bcreadUv ctx uv.length) (uv.flatMap fun u => memBytes ctx.be 2 u.toNat) st uv st := by
  have huv : Reads (readMany (bcreadWord ctx.be 2) uv.length)
      (uv.flatMap fun u => memBytes ctx.be 2 u.toNat) st uv st :=
    Reads.readMany fun u _ => bcreadWord_reads ctx.be 2 u st
  intro rest
  rw [bcreadUv, huv.run_bind, hctx.swap]
  rfl

theorem bcreadKnum_reads (kn : List Number) (st : ReadState) :
    Reads (bcreadKnum ctx kn.length) (bcwriteKnum ctx.be kn) st kn st :=
  Reads.readMany fun n _ => bcreadWord_reads ctx.be 8 n st

/-- `sizedbg`, `firstline` and `numline` as they are read. -/
def dbgHead (strip : Bool) (hd : ProtoHead) : BitVec 32 × BitVec 32 × BitVec 32 :=
  match writtenDbg strip hd with
  | none => (0, 0, 0)
  | some d => (BitVec.ofNat 32 d.block.length, d.firstline, d.numline)

variable {hd : ProtoHead}

theorem writtenDbg_some (hok : hd.Ok) {d : Dbg} (h : writtenDbg strip hd = some d) :
    strip = false ∧ hd.dbg = some d ∧ d.Ok (hd.bc.length - 1) hd.uv.length ∧
      BitVec.ofNat 32 d.block.length ≠ 0 ∧ d.block.length < 2 ^ 31 := by
  rw [writtenDbg] at h
  cases strip with
  | true => cases h
  | false =>
    rw [if_neg Bool.false_ne_true, Option.filter_eq_some_iff] at h
    obtain ⟨hd', -⟩ := h
    have hdok := hok.dbg d hd'
    refine ⟨rfl, hd', hdok, ?_, ?_⟩
    all_goals
      obtain ⟨li, names, vi, hblock, -, -, -, hvi, -, -, hlt⟩ := hdok
    · intro h0
      have hlen := congrArg BitVec.toNat h0
      rw [BitVec.toNat_ofNat, Nat.mod_eq_of_lt (by omega)] at hlen
      have hnil : d.block = [] := length_eq_zero_iff.mp hlen
      rw [hblock, append_eq_nil_iff, append_eq_nil_iff] at hnil
      exact hvi hnil.2.2
    · omega

theorem writtenDbg_none (hok : hd.Ok) (h : writtenDbg strip hd = none) :
    (if strip then none else hd.dbg) = none := by
  cases strip with
  | true => rfl
  | false =>
    rw [if_neg Bool.false_ne_true]
    rcases hdbg : hd.dbg with _ | d
    · rfl
    · obtain ⟨li, names, vi, hblock, -, -, -, hvi, -⟩ := hok.dbg d hdbg
      have hne : d.block.isEmpty = false := by
        rw [hblock]
        cases vi with
        | nil => exact absurd rfl hvi
        | cons b bs => simp
      rw [writtenDbg, if_neg Bool.false_ne_true, hdbg, Option.filter_some, hne] at h
      cases h

theorem bcreadDbgHead_reads (hctx : ctx.OfDump strip) (hok : hd.Ok) (st : ReadState) :
    Reads (bcreadDbgHead ctx) (bcwriteDbgHead ctx.be strip hd) st (dbgHead strip hd) st := by
  rw [bcreadDbgHead, bcwriteDbgHead, dbgHead]
  by_cases hs : strip = true
  · subst hs
    rw [if_pos (hctx.strip.mpr rfl), if_pos rfl]
    exact Reads.pure _ st
  · rw [if_neg (fun h => hs (hctx.strip.mp h)), if_neg hs]
    rcases hw : writtenDbg strip hd with _ | d
    · have h := (bcreadUint32_reads ctx.be 0 st).bind (f := fun sizedbg => do
        if sizedbg ≠ 0 then
          let firstline ← bcreadUint32 ctx.be
          let numline ← bcreadUint32 ctx.be
          return (sizedbg, firstline, numline)
        else return (0, 0, 0)) (Reads.pure ((0 : BitVec 32), (0 : BitVec 32), (0 : BitVec 32)) st)
      rwa [append_nil] at h
    · obtain ⟨-, -, -, hne, -⟩ := writtenDbg_some hok hw
      refine (bcreadUint32_reads ctx.be d.block.length st).bind ?_
      rw [if_pos hne]
      refine (bcreadUint32_reads ctx.be d.firstline.toNat st).bind ?_
      rw [BitVec.ofNat_toNat, BitVec.setWidth_eq]
      have h := (bcreadUint32_reads ctx.be d.numline.toNat st).map fun numline =>
        (BitVec.ofNat 32 d.block.length, d.firstline, numline)
      rwa [BitVec.ofNat_toNat, BitVec.setWidth_eq] at h

theorem skipNames_name {n : Bytes} (hn : 0 ∉ n) (count : ℕ) (rest : Bytes) :
    skipNames count (n ++ [0] ++ rest) =
      if count ≤ 1 then some (n.length + 1)
      else (skipNames (count - 1) rest).map (· + (n.length + 1)) := by
  induction n with
  | nil =>
    rw [nil_append, singleton_append, skipNames, if_neg (not_not.mpr rfl)]
    rfl
  | cons b n ih =>
    have hb : b ≠ 0 := fun h => hn (by rw [h]; exact mem_cons_self ..)
    have := ih fun h => hn (mem_cons_of_mem _ h)
    rw [cons_append, cons_append, skipNames, if_pos hb, this]
    split_ifs
    · simp
    · rw [Option.map_map]
      congr 1

/-- **Run lemma** of `bcread_varinfo`: it steps over as many names as there are upvalues. -/
theorem skipNames_names {names : List Bytes} (hnames : ∀ n ∈ names, 0 ∉ n) (hne : names ≠ [])
    (rest : Bytes) :
    skipNames names.length (names.flatMap (· ++ [0]) ++ rest) =
      some (names.flatMap (· ++ [0])).length := by
  induction names with
  | nil => exact absurd rfl hne
  | cons n names ih =>
    have hn := hnames n (mem_cons_self ..)
    rw [flatMap_cons, append_assoc, skipNames_name hn]
    by_cases hlast : names = []
    · subst hlast
      simp
    · have hlen : ¬ (n :: names).length ≤ 1 := by
        have := length_pos_iff.mpr hlast
        rw [length_cons]
        omega
      rw [if_neg hlen, length_cons, Nat.add_sub_cancel,
        ih (fun n' h => hnames n' (mem_cons_of_mem _ h)) hlast]
      simp
      omega

theorem bcreadVarinfo_names {names : List Bytes} (hnames : ∀ n ∈ names, 0 ∉ n) (rest : Bytes) :
    bcreadVarinfo names.length (names.flatMap (· ++ [0]) ++ rest) =
      .ok (names.flatMap (· ++ [0])).length := by
  rw [bcreadVarinfo]
  by_cases hne : names = []
  · subst hne
    rfl
  · rw [if_neg (by simpa using hne), skipNames_names hnames hne]

theorem bcreadDbgInfo_reads (hctx : ctx.OfDump strip) (hok : hd.Ok) (st : ReadState) :
    Reads (bcreadDbgInfo ctx (hd.bc.length - 1) hd.uv.length (dbgHead strip hd))
      (bcwriteDbg strip hd) st (if strip then none else hd.dbg) st := by
  rw [bcreadDbgInfo, dbgHead, bcwriteDbg]
  rcases hw : writtenDbg strip hd with _ | d
  · rw [writtenDbg_none hok hw]
    exact Reads.pure none st
  · obtain ⟨hs, hdbg, hdok, hne, hlt⟩ := writtenDbg_some hok hw
    obtain ⟨li, names, vi, hblock, hli, hcount, hnames, -, huv, hvar, -⟩ := hdok
    have hnat : (BitVec.ofNat 32 d.block.length).toNat = d.block.length := by
      rw [BitVec.toNat_ofNat]
      exact Nat.mod_eq_of_lt (by omega)
    have hread : Reads (bcreadDbg ctx (hd.bc.length - 1) d.numline d.block.length) d.block st
        d.block st := by
      intro rest
      rw [bcreadDbg, (bcreadMem_reads d.block st).run_bind, hctx.swap]
      rfl
    have hdrop : d.block.drop ((hd.bc.length - 1) <<< lineShift d.numline) =
        names.flatMap (· ++ [0]) ++ vi := by
      rw [← hli, hblock, drop_left]
    have hresult : (if strip then none else hd.dbg) = some ⟨d.firstline, d.numline, d.block,
        (hd.bc.length - 1) <<< lineShift d.numline,
        (hd.bc.length - 1) <<< lineShift d.numline + (names.flatMap (· ++ [0])).length⟩ := by
      rw [hs, if_neg Bool.false_ne_true, hdbg, ← hli, ← hvar, ← huv]
    rw [hresult]
    simp only [if_pos hne, hnat]
    intro rest
    rw [hread.run_bind, hdrop, ← hcount, bcreadVarinfo_names hnames]
    rfl

end fields

/-! ## Constants -/

section constants

variable {ctx : ReadCtx} {strip : Bool}

theorem bcreadKgc_takes (ctx : ReadCtx) {kgc : Kgc (Tab Bytes)} (hok : kgc.Ok)
    {cs st : List (Proto (Tab Bytes))} (hcs : List.Forall₂ (SameProto strip) kgc.children cs) :
    ∃ kgc', SameKgc strip kgc kgc' ∧
      Takes (bcreadKgc ctx kgc.size) (bcwriteKgc ctx.be kgc) (cs ++ st) kgc' st kgc.strs := by
  match kgc with
  | .nil =>
    cases hcs
    exact ⟨.nil, .nil, .pure _ st⟩
  | .str s rest =>
    obtain ⟨hs, hrest⟩ := hok
    obtain ⟨kgc', hsame, hread⟩ := bcreadKgc_takes ctx hrest hcs
    refine ⟨.str s kgc', .str hsame, ?_⟩
    have hint := toInt_ofNat_of_lt (n := bcdumpKgcStr + s.length) (by
      simp only [kpMaxStr] at hs
      simp only [bcdumpKgcStr]
      omega)
    have hnat : (BitVec.ofNat 32 (bcdumpKgcStr + s.length)).toNat - bcdumpKgcStr = s.length := by
      simp only [kpMaxStr] at hs
      simp only [bcdumpKgcStr, BitVec.toNat_ofNat]
      omega
    rw [bcwriteKgc, Kgc.size, bcreadKgc, append_assoc]
    refine .bind_reads (fun _ => bcreadUint32_reads ctx.be _ _) ?_
    rw [if_pos (by rw [hint]; simp), hnat]
    exact (bcreadStr_takes s _).bind (hread.map (Kgc.str s ·))
  | .tab t rest =>
    obtain ⟨ht, hrest⟩ := hok
    obtain ⟨kgc', hsame, hread⟩ := bcreadKgc_takes ctx hrest hcs
    obtain ⟨t', htab, hmap⟩ := bcreadKtab_takes ctx ht
    refine ⟨.tab t' kgc', .tab hmap hsame, ?_⟩
    rw [bcwriteKgc, Kgc.size, bcreadKgc, append_assoc]
    refine .bind_reads (fun _ => bcreadUint32_reads ctx.be _ _) ?_
    rw [if_neg (by decide), if_pos (by decide)]
    exact (htab _).bind (hread.map (Kgc.tab t' ·))
  | .child pt rest =>
    obtain ⟨-, hrest⟩ := hok
    cases hcs with
    | @cons _ pt' _ cs' hpt hcs =>
      obtain ⟨kgc', hsame, hread⟩ := bcreadKgc_takes ctx hrest hcs
      refine ⟨.child pt' kgc', .child hpt hsame, ?_⟩
      have hpop (strs : Finset Bytes) :
          Reads popProto [] ⟨pt' :: cs' ++ st, strs⟩ pt' ⟨cs' ++ st, strs⟩ := fun _ => rfl
      rw [bcwriteKgc, Kgc.size, bcreadKgc]
      refine .bind_reads (fun _ => bcreadUint32_reads ctx.be _ _) ?_
      rw [if_neg (by decide), if_neg (by decide), if_pos (by decide)]
      exact .bind_reads hpop (hread.map (Kgc.child pt' ·))

theorem bcreadProto_takes (hctx : ctx.OfDump strip) {hd : ProtoHead} {kgc : Kgc (Tab Bytes)}
    (hok : Proto.Ok (.mk hd kgc)) {cs : List (Proto (Tab Bytes))}
    (hcs : List.Forall₂ (SameProto strip) kgc.children cs) (st : List (Proto (Tab Bytes))) :
    ∃ pt', SameProto strip (.mk hd kgc) pt' ∧
      Takes (bcreadProto ctx) (bcwriteBody ctx.be strip hd kgc) (cs ++ st) pt' st kgc.strs := by
  obtain ⟨hhd, hkgc, hsize, -⟩ := hok
  obtain ⟨kgc', hsame, hread⟩ := bcreadKgc_takes ctx hkgc hcs
  obtain ⟨ins, hbc, hins⟩ := hhd.bc
  refine ⟨_, .mk hsame, ?_⟩
  have hnbc : hd.bc.length - 1 = ins.length := by
    rw [hbc, length_cons, Nat.add_sub_cancel]
  have huv : (BitVec.ofNat 8 hd.uv.length).toNat = hd.uv.length := by
    rw [BitVec.toNat_ofNat]
    exact Nat.mod_eq_of_lt hhd.uv
  rw [bcwriteBody, hhd.flags, hnbc]
  refine .bind_reads (fun _ => bcreadByte_reads _ _) (.bind_reads (fun _ => bcreadByte_reads _ _)
    (.bind_reads (fun _ => bcreadByte_reads _ _) (.bind_reads (fun _ => bcreadByte_reads _ _)
      (.bind_reads (fun _ => bcreadUint32_reads _ _ _) (.bind_reads (fun _ =>
        bcreadUint32_reads _ _ _)
        (.bind_reads (fun _ => bcreadUint32_reads _ _ _)
          (.bind_reads (fun _ => bcreadDbgHead_reads hctx hhd _) ?_)))))))
  have hkn := hhd.kn
  rw [toInt_ofNat_of_lt (show kgc.size < 2 ^ 31 by omega), toInt_ofNat_of_lt (by omega),
    toInt_ofNat_of_lt (by omega), huv]
  refine .bind_reads (fun _ => bcreadBytecode_reads hctx hbc _)
    (.bind_reads (fun _ => bcreadUv_reads hctx _ _) ?_)
  rw [← append_nil kgc.strs]
  refine hread.bind (.bind_reads (fun _ => bcreadKnum_reads _ _) (.of_reads fun strs => ?_))
  have hdbg := bcreadDbgInfo_reads hctx hhd ⟨st, strs⟩
  rw [hnbc] at hdbg
  exact hdbg.map fun dbg => Proto.mk ⟨hd.flags, hd.numparams, hd.framesize, hd.bc, hd.uv, hd.kn,
    dbg⟩ kgc'

end constants

/-! ## Trees -/

section trees

variable {ctx : ReadCtx} {strip : Bool} {room : ℕ}

theorem bcreadBody_eq {b : Bytes} {s st : List (Proto (Tab Bytes))} {pt : Proto (Tab Bytes)}
    {l : List Bytes} (h : Takes (bcreadProto ctx) b s pt st l) (strs : Finset Bytes)
    (rest : Bytes) :
    bcreadBody ctx room b.length ⟨b ++ rest, s, strs⟩ =
      match internAll strs l with
      | some strs' =>
        if st.length < room then .ok ⟨rest, pt :: st, strs'⟩ else .error .stackOverrun
      | none => .error .noObject := by
  have hlen : ¬ ((rest.length : ℤ) + b.length ≠ (b ++ rest).length) := by
    rw [length_append]
    push_cast
    omega
  rw [bcreadBody, h strs rest]
  cases internAll strs l with
  | none => rfl
  | some strs' =>
    by_cases hroom : st.length < room
    · simp only [bind, Except.bind, if_neg hlen, pushProto, if_pos hroom]
      rfl
    · simp only [bind, Except.bind, if_neg hlen, pushProto, if_neg hroom]

theorem bcwriteChildren_eq_nil {be : Bool} {kgc : Kgc (Tab Bytes)} (h : kgc.children = []) :
    bcwriteChildren be strip kgc = [] := by
  match kgc with
  | .nil => rfl
  | .str _ rest =>
    rw [bcwriteChildren]
    exact bcwriteChildren_eq_nil (show rest.children = [] from h)
  | .tab _ rest =>
    rw [bcwriteChildren]
    exact bcwriteChildren_eq_nil (show rest.children = [] from h)
  | .child _ _ => cases h

theorem bcwriteProto_eq {be : Bool} {hd : ProtoHead} {kgc : Kgc (Tab Bytes)}
    (hok : Proto.Ok (.mk hd kgc)) :
    bcwriteProto be strip (.mk hd kgc) =
      bcwriteChildren be strip kgc ++ [bcwriteBody be strip hd kgc] := by
  obtain ⟨-, -, -, hchild⟩ := hok
  rw [bcwriteProto]
  split_ifs with hflag
  · rfl
  · rw [bcwriteChildren_eq_nil (hchild (not_not.mp hflag))]

mutual

/-- **Trees that fit** are read back and end up on the stack. -/
theorem bodies_proto (hctx : ctx.OfDump strip) {pt : Proto (Tab Bytes)} (hok : pt.Ok)
    (st : List (Proto (Tab Bytes))) (hroom : st.length + pt.peak ≤ room) {strs strs' : Finset Bytes}
    (hstrs : internAll strs pt.strs = some strs') :
    ∃ pt', SameProto strip pt pt' ∧ BodiesRead (bcreadBody ctx room) ⟨st, strs⟩
      (bcwriteProto ctx.be strip pt) ⟨pt' :: st, strs'⟩ := by
  match pt with
  | .mk hd kgc =>
    rw [Proto.peak] at hroom
    rw [Proto.strs, internAll_append] at hstrs
    obtain ⟨strs₁, hchildren, hown⟩ := Option.bind_eq_some_iff.mp hstrs
    obtain ⟨cs, hcs, hread⟩ := bodies_kgc hctx hok.2.1 st (by omega) hchildren
    obtain ⟨pt', hsame, hbody⟩ := bcreadProto_takes hctx hok hcs st
    refine ⟨pt', hsame, ?_⟩
    rw [bcwriteProto_eq hok]
    refine hread.append (.cons (fun rest => ?_) (.nil _))
    rw [bcreadBody_eq hbody, hown]
    exact if_pos (by omega)

theorem bodies_kgc (hctx : ctx.OfDump strip) {kgc : Kgc (Tab Bytes)} (hok : kgc.Ok)
    (st : List (Proto (Tab Bytes)))
    (hroom : st.length + kgc.peak ≤ room) {strs strs' : Finset Bytes}
    (hstrs : internAll strs kgc.childStrs = some strs') :
    ∃ cs, List.Forall₂ (SameProto strip) kgc.children cs ∧ BodiesRead (bcreadBody ctx room)
      ⟨st, strs⟩ (bcwriteChildren ctx.be strip kgc) ⟨cs ++ st, strs'⟩ := by
  match kgc with
  | .nil =>
    cases hstrs
    exact ⟨[], .nil, .nil _⟩
  | .str _ rest => exact bodies_kgc hctx (show rest.Ok from hok.2) st hroom hstrs
  | .tab _ rest => exact bodies_kgc hctx (show rest.Ok from hok.2) st hroom hstrs
  | .child pt rest =>
    rw [Kgc.peak] at hroom
    rw [Kgc.childStrs, internAll_append] at hstrs
    obtain ⟨strs₁, hrest, hlast⟩ := Option.bind_eq_some_iff.mp hstrs
    obtain ⟨cs, hcs, hread⟩ := bodies_kgc hctx hok.2 st (by omega) hrest
    have hlen := hcs.length_eq
    obtain ⟨pt', hsame, hpt⟩ := bodies_proto hctx hok.1 (cs ++ st) (by
      rw [length_append]
      omega) hlast
    exact ⟨pt' :: cs, .cons hsame hcs, hread.append hpt⟩

end

mutual

/-- **Trees that are read back** fit the stack and the table of strings. -/
theorem fits_of_bodies_proto (hctx : ctx.OfDump strip) {pt : Proto (Tab Bytes)} (hok : pt.Ok)
    (st : List (Proto (Tab Bytes))) (hst : st.length ≤ room) {strs : Finset Bytes} {s' : ReadState}
    (hread : BodiesRead (bcreadBody ctx room) ⟨st, strs⟩ (bcwriteProto ctx.be strip pt) s') :
    st.length + pt.peak ≤ room ∧ (internAll strs pt.strs).isSome := by
  match pt with
  | .mk hd kgc =>
    rw [bcwriteProto_eq hok] at hread
    obtain ⟨s'', hfirst⟩ := hread.of_append_left
    obtain ⟨hpeak, hsome⟩ := fits_of_bodies_kgc hctx hok.2.1 st hst hfirst
    obtain ⟨strs₁, hstrs₁⟩ := Option.isSome_iff_exists.mp hsome
    obtain ⟨cs, hcs, hchildren⟩ := bodies_kgc hctx hok.2.1 st hpeak hstrs₁
    obtain ⟨pt', -, hbody⟩ := bcreadProto_takes hctx hok hcs st
    rw [Proto.peak, Proto.strs, internAll_append, hstrs₁, Option.bind_some]
    -- the body of the parent is read behind those of its children
    cases hchildren.of_append hread with
    | cons hb _ =>
      have hlast := hb []
      rw [bcreadBody_eq hbody] at hlast
      cases hown : internAll strs₁ kgc.strs with
      | none =>
        rw [hown] at hlast
        cases hlast
      | some strs' =>
        rw [hown] at hlast
        dsimp only at hlast
        split at hlast
        · exact ⟨by omega, rfl⟩
        · cases hlast

theorem fits_of_bodies_kgc (hctx : ctx.OfDump strip) {kgc : Kgc (Tab Bytes)} (hok : kgc.Ok)
    (st : List (Proto (Tab Bytes))) (hst : st.length ≤ room) {strs : Finset Bytes} {s' : ReadState}
    (hread : BodiesRead (bcreadBody ctx room) ⟨st, strs⟩ (bcwriteChildren ctx.be strip kgc) s') :
    st.length + kgc.peak ≤ room ∧ (internAll strs kgc.childStrs).isSome := by
  match kgc with
  | .nil => exact ⟨hst, rfl⟩
  | .str _ rest => exact fits_of_bodies_kgc hctx (show rest.Ok from hok.2) st hst hread
  | .tab _ rest => exact fits_of_bodies_kgc hctx (show rest.Ok from hok.2) st hst hread
  | .child pt rest =>
    rw [bcwriteChildren] at hread
    obtain ⟨s'', hfirst⟩ := hread.of_append_left
    obtain ⟨hpeak, hsome⟩ := fits_of_bodies_kgc hctx hok.2 st hst hfirst
    obtain ⟨strs₁, hstrs₁⟩ := Option.isSome_iff_exists.mp hsome
    obtain ⟨cs, hcs, hchildren⟩ := bodies_kgc hctx hok.2 st hpeak hstrs₁
    have hlen := hcs.length_eq
    have hle := rest.length_children_le
    obtain ⟨hpt, hlast⟩ := fits_of_bodies_proto hctx hok.1 (cs ++ st) (by
      rw [length_append]
      omega) (hchildren.of_append hread)
    rw [length_append] at hpt
    rw [Kgc.peak, Kgc.childStrs, internAll_append, hstrs₁]
    exact ⟨by omega, hlast⟩

end

/-! ### Strings of a tree -/

theorem Val.IsConst.short {v : Val Bytes} (h : v.IsConst) : ∀ s ∈ v.strs, s.length < kpMaxStr := by
  cases v <;> simp_all [Val.strs, Val.IsConst]

theorem TmplOk.short {t : Tab Bytes} (h : TmplOk t) : ∀ s ∈ tabStrs t, s.length < kpMaxStr := by
  intro s hs
  rw [tabStrs, mem_append, mem_flatMap, mem_flatMap] at hs
  rcases hs with ⟨v, hv, hs⟩ | ⟨n, hn, hs⟩
  · exact (h.array_const v (mem_of_mem_take hv)).short s hs
  · obtain ⟨hnode, hval⟩ := h.mem_usedNodes.mp hn
    rcases h.node_const n hnode hval with ⟨-, hk, hv⟩ | ⟨hk, hv⟩
    · rcases mem_append.mp hs with hs | hs
      · exact hk.short s hs
      · exact hv.short s hs
    · -- zeroed memory has no string
      cases hkey : n.key <;> cases hvalue : n.val <;>
        simp_all [Val.strs, Val.IsZeroed]

theorem Kgc.Ok.short {kgc : Kgc (Tab Bytes)} (h : kgc.Ok) :
    ∀ s ∈ kgc.strs, s.length < kpMaxStr := by
  match kgc with
  | .nil => simp [Kgc.strs]
  | .str _ rest => exact forall_mem_cons.mpr ⟨h.1, @Kgc.Ok.short rest h.2⟩
  | .tab _ rest => exact forall_mem_append.mpr ⟨h.1.short, @Kgc.Ok.short rest h.2⟩
  | .child _ rest => exact @Kgc.Ok.short rest h.2

mutual

theorem Proto.Ok.short {pt : Proto (Tab Bytes)} (h : pt.Ok) :
    ∀ s ∈ pt.strs, s.length < kpMaxStr := by
  match pt with
  | .mk _ kgc => exact forall_mem_append.mpr ⟨@Kgc.Ok.child_short kgc h.2.1, h.2.1.short⟩

theorem Kgc.Ok.child_short {kgc : Kgc (Tab Bytes)} (h : kgc.Ok) :
    ∀ s ∈ kgc.childStrs, s.length < kpMaxStr := by
  match kgc with
  | .nil => simp [Kgc.childStrs]
  | .str _ rest | .tab _ rest => exact @Kgc.Ok.child_short rest h.2
  | .child pt rest =>
    exact forall_mem_append.mpr ⟨@Kgc.Ok.child_short rest h.2,
      @Proto.Ok.short pt h.1⟩

end

/-! ### Round trip -/

end trees

/-! ## A script with many functions -/

/-- A reader on a little-endian host, for a dump with debug information. -/
def hostCtx : ReadCtx :=
  ⟨false, 0, ⟨none, fun _ _ => none⟩, fun _ => Node.empty, fun _ => .nil, 0⟩

/-- The fields of a function that consists of `n` times RET0. -/
def retHead (flags : BitVec 8) (n : ℕ) : ProtoHead :=
  ⟨flags, 0, 1, bcFunc flags 1 :: List.replicate n 0x00010050, [], [],
    some ⟨1, 0, List.replicate n 0 ++ [0], n, n⟩⟩

def leaf (n : ℕ) : Proto (Tab Bytes) := .mk (retHead 0 n) .nil

/-- A template table with the pair `a = 7`. -/
def template : Tab Bytes := ⟨[], [Node.empty, ⟨.num 7, .str [0x61], none⟩], 1, 1, 0⟩

/-- The constants of a script with `n` functions, a string and a template table. -/
def leaves : ℕ → Kgc (Tab Bytes)
  | 0 => .str [0x6f, 0x6b] (.tab template .nil)
  | n + 1 => .child (leaf 1) (leaves n)

theorem retHead_ok {flags : BitVec 8} {n : ℕ}
    (hf : flags &&& (protoChild ||| protoVararg ||| protoFfi) = flags) (hn : n < 2 ^ 26) :
    (retHead flags n).Ok where
  flags := hf
  bc := ⟨_, rfl, by rwa [length_replicate]⟩
  uv := by simp [retHead]
  kn := by simp [retHead]
  dbg := by
    rintro d ⟨rfl⟩
    refine ⟨List.replicate n 0, [], [0], rfl, ?_, rfl, by simp, by simp, ?_, ?_, ?_⟩
    · simp [retHead, lineShift]
    · simp
    · simp
    · simp only [length_append, length_replicate, length_singleton]
      omega

theorem leaf_ok {n : ℕ} (hn : n < 2 ^ 26) : (leaf n).Ok :=
  ⟨retHead_ok (by decide) hn, trivial, by decide, fun _ => rfl⟩

theorem hostCtx_ofDump : hostCtx.OfDump false := by
  rw [ReadCtx.OfDump]
  decide

end Ktap
