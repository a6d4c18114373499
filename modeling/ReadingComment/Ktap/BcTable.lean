import ReadingComment.Ktap.BcRead
import ReadingComment.Ktap.TabMap

/-!
# Template tables survive the dump

A template table is written as its array part without the trailing nils and its
hash nodes from the last one down, and read back by storing the pairs into a
fresh table. The order and the layout of the nodes are lost, the content is not:
the stores are operations of `TabMap`, there are enough nodes for all of them,
and so the rebuilt table is the map of the template.
-/

namespace Ktap

open Codec Function List

/-! ## What a template holds -/

def Val.IsScript : Val Bytes → Prop
  | .bool _ | .num _ | .str _ => True
  | _ => False

def Val.IsConst : Val Bytes → Prop
  | .nil | .bool _ | .num _ => True
  | .str s => s.length < kpMaxStr
  | _ => False

/-- Zeroed memory, as the compiler's table leaves it in unused nodes when it grows. -/
def Val.IsZeroed : Val Bytes → Prop
  | .obj t _ => t = .zero
  | _ => False

/-- What holds of every template table the compiler makes. -/
structure TmplOk (t : Tab Bytes) : Prop where
  size : t.node.length = t.hmask.toNat + 1
  mask_pos : 0 < t.hmask.toNat
  asize_le : t.array.length ≤ kpMaxAsize
  /-- more hash entries are refused with "table overflow" -/
  used_le : (usedNodes t).length ≤ 2 ^ kpMaxHbits
  array_const : ∀ v ∈ t.array, v.IsConst
  /-- a node with a value holds a pair of constants or was never used -/
  node_const : ∀ n ∈ t.node, n.val ≠ .nil →
    (n.key.IsScript ∧ n.key.IsConst ∧ n.val.IsConst) ∨ (n.key.IsZeroed ∧ n.val.IsZeroed)
  key_uniq : ∀ n ∈ t.node, ∀ n' ∈ t.node, n.key.IsScript → n.key = n'.key → n = n'
  /-- small numbers live in the array part -/
  key_hash : ∀ n ∈ t.node, ∀ k, n.key = .num k → t.asize ≤ k.toNat

open Classical in
/-- The map a table is to a script. -/
noncomputable def Tab.asMap (t : Tab Bytes) : Val Bytes → Val Bytes :=
  fun k => if k.IsScript then t.content k else .nil

/-- A value as it is read back: zeroed memory keeps its type word only. -/
def reread (ctx : ReadCtx) : Val Bytes → Val Bytes
  | .obj .zero _ => .obj .zero ctx.garbageRef
  | v => v

theorem Val.IsConst.reread {v : Val Bytes} (h : v.IsConst) (ctx : ReadCtx) :
    Ktap.reread ctx v = v := by
  cases v with
  | obj => exact absurd h id
  | _ => rfl

theorem Val.IsScript.isKey {v : Val Bytes} (h : v.IsScript) : v.IsKey := by
  cases v <;> trivial

/-! ## Strings that are read -/

/-- The strings are entered into the table, one after the other. -/
def internAll (strs : Finset Bytes) (l : List Bytes) : Option (Finset Bytes) :=
  l.foldlM kpStrNew strs

theorem internAll_append (strs : Finset Bytes) (l l' : List Bytes) :
    internAll strs (l ++ l') = (internAll strs l).bind (internAll · l') := foldlM_append ..

/-- Whatever follows, `m` reads exactly the bytes `w`, which hold the strings `l`, returns `a` and
takes the stack from `st` to `st'`; it stops if there is no room for a string. -/
def Takes {α : Type} (m : BcReader α) (w : Bytes) (st : List (Proto (Tab Bytes))) (a : α)
    (st' : List (Proto (Tab Bytes))) (l : List Bytes) : Prop :=
  ∀ strs rest, m ⟨w ++ rest, st, strs⟩ =
    match internAll strs l with
    | some strs' => .ok (a, ⟨rest, st', strs'⟩)
    | none => .error .noObject

section takes

variable {α β : Type} {m : BcReader α} {f : α → BcReader β} {w w' : Bytes} {a : α} {b : β}
  {st st' st'' : List (Proto (Tab Bytes))} {l l' : List Bytes}

theorem Takes.of_reads (h : ∀ strs, Reads m w ⟨st, strs⟩ a ⟨st', strs⟩) : Takes m w st a st' [] :=
  fun strs rest => h strs rest

theorem Takes.pure (a : α) (st : List (Proto (Tab Bytes))) : Takes (Pure.pure a) [] st a st [] :=
  fun _ _ => rfl

theorem Takes.bind (hm : Takes m w st a st' l) (hf : Takes (f a) w' st' b st'' l') :
    Takes (m >>= f) (w ++ w') st b st'' (l ++ l') := by
  intro strs rest
  change (do let (a, c) ← m ⟨w ++ w' ++ rest, st, strs⟩; f a c) = _
  rw [append_assoc, hm, internAll_append]
  cases internAll strs l with
  | none => rfl
  | some strs' => exact hf strs' rest

theorem Takes.bind_reads (hm : ∀ strs, Reads m w ⟨st, strs⟩ a ⟨st', strs⟩)
    (hf : Takes (f a) w' st' b st'' l') : Takes (m >>= f) (w ++ w') st b st'' l' :=
  (Takes.of_reads hm).bind hf

theorem Takes.map (hm : Takes m w st a st' l) (g : α → β) :
    Takes (do return g (← m)) w st (g a) st' l := by
  have h := hm.bind (f := fun a => Pure.pure (g a)) (.pure (g a) st')
  rwa [append_nil, append_nil] at h

theorem Takes.readMany {w : α → Bytes} {l : α → List Bytes} {as : List α}
    (h : ∀ a ∈ as, Takes m (w a) st a st (l a)) :
    Takes (readMany m as.length) (as.flatMap w) st as st (as.flatMap l) := by
  induction as with
  | nil => exact .pure [] st
  | cons a as ih =>
    obtain ⟨ha, has⟩ := forall_mem_cons.mp h
    exact ha.bind ((ih has).map (a :: ·))

end takes

def Val.strs : Val Bytes → List Bytes
  | .str s => [s]
  | _ => []

/-- The strings of a template table, in the order in which they are written. -/
def tabStrs (t : Tab Bytes) : List Bytes :=
  (t.array.take (narrayOf t.array t.asize)).flatMap Val.strs ++
    (usedNodes t).flatMap fun n => n.key.strs ++ n.val.strs

section readers

variable {ctx : ReadCtx} {st : List (Proto (Tab Bytes))}

theorem bcreadStr_takes (s : Bytes) (st : List (Proto (Tab Bytes))) :
    Takes (bcreadStr s.length) s st s st [s] := by
  intro strs rest
  rw [bcreadStr, (bcreadMem_reads s (⟨st, strs⟩ : ReadState)).run_bind, internAll, foldlM_cons,
    internStr]
  cases kpStrNew strs s <;> rfl

theorem bcreadKtabk_takes (ctx : ReadCtx) {v : Val Bytes} (hv : v.IsConst ∨ v.IsZeroed)
    (st : List (Proto (Tab Bytes))) :
    Takes (bcreadKtabk ctx) (bcwriteKtabk ctx.be v) st (reread ctx v) st v.strs := by
  -- the codes below `BCDUMP_KTAB_NUM` stand for themselves
  have hpri : ∀ (tp : ℕ) (w : Val Bytes), (BitVec.ofNat 32 tp).toInt < 4 →
      priVal ctx (BitVec.ofNat 32 tp) = .ok w →
      Takes (bcreadKtabk ctx) (bcwriteUint32 ctx.be tp) st w st [] := by
    intro tp w hlt hw strs rest
    rw [bcreadKtabk, (bcreadUint32_reads ctx.be tp (⟨st, strs⟩ : ReadState)).run_bind,
      if_neg (by simp only [bcdumpKtabStr]; omega), if_neg (by simp only [bcdumpKtabNum]; omega),
      hw]
    rfl
  cases v with
  | nil => exact hpri 0 .nil (by decide) rfl
  | bool b =>
    cases b
    · exact hpri 1 (.bool false) (by decide) rfl
    · exact hpri 2 (.bool true) (by decide) rfl
  | num n =>
    refine .bind_reads (fun strs => bcreadUint32_reads ctx.be bcdumpKtabNum _) ?_
    rw [if_neg (by decide), if_pos (by decide)]
    refine .of_reads fun strs => ?_
    exact (bcreadWord_reads ctx.be 8 n _).map Val.num
  | str s =>
    have hs : s.length < 512 := by
      rcases hv with h | h
      · exact h
      · exact absurd h id
    have hint :=
      toInt_ofNat_of_lt (n := bcdumpKtabStr + s.length) (by simp only [bcdumpKtabStr]; omega)
    have hnat : (BitVec.ofNat 32 (bcdumpKtabStr + s.length)).toNat - bcdumpKtabStr = s.length := by
      simp only [bcdumpKtabStr, BitVec.toNat_ofNat]
      omega
    refine .bind_reads (fun strs => bcreadUint32_reads ctx.be _ _) ?_
    rw [if_pos (by rw [hint]; simp), hnat]
    exact (bcreadStr_takes s st).map Val.str
  | obj t gc =>
    obtain rfl : t = .zero := by
      rcases hv with h | h
      · exact absurd h id
      · exact h
    have hcode : bcwriteKtabk ctx.be (.obj .zero gc) = bcwriteUint32 ctx.be (2 ^ 32 - 1) := by
      change bcwriteUint32 ctx.be (~~~(0 : BitVec 32)).toNat = _
      rw [show (~~~(0 : BitVec 32)).toNat = 2 ^ 32 - 1 by decide]
    rw [hcode]
    exact hpri (2 ^ 32 - 1) _ (by decide) (by simp [priVal, reread])
  | eventstr _ | kstack _ _ _ => exact absurd hv (by simp [Val.IsConst, Val.IsZeroed])

/-! ## The hash entries -/

def setsOf (ctx : ReadCtx) (l : List (Node Bytes)) : List (Op Bytes) :=
  l.map fun n => .set (reread ctx n.key) (reread ctx n.val)

theorem setsOf_cons (n : Node Bytes) (l : List (Node Bytes)) :
    setsOf ctx (n :: l) = .set (reread ctx n.key) (reread ctx n.val) :: setsOf ctx l := rfl

/-- **Run lemma** of the loop over the hash entries: it makes the stores. -/
theorem bcreadHash_takes {l : List (Node Bytes)}
    (hl : ∀ n ∈ l, (n.key.IsConst ∨ n.key.IsZeroed) ∧ (n.val.IsConst ∨ n.val.IsZeroed)) :
    ∀ {t t' : Tab Bytes} {es : List TabErr}, runOps ctx.ks t (setsOf ctx l) = .ok (t', es) →
      Takes (bcreadHash ctx l.length t)
        (l.flatMap fun n => bcwriteKtabk ctx.be n.key ++ bcwriteKtabk ctx.be n.val) st t' st
        (l.flatMap fun n => n.key.strs ++ n.val.strs) := by
  induction l with
  | nil =>
    intro t t' es hrun
    cases hrun
    exact .pure t st
  | cons n l ih =>
    intro t t' es hrun
    obtain ⟨hkey, hval⟩ := hl n (mem_cons_self ..)
    rw [setsOf_cons, runOps, Op.run] at hrun
    rcases hset : kpTabSet ctx.ks t (reread ctx n.key) (reread ctx n.val) with f | ⟨t₁, e⟩
    · rw [hset] at hrun
      cases hrun
    · rcases hrest : runOps ctx.ks t₁ (setsOf ctx l) with f | ⟨t₂, es₂⟩
      · simp only [hset, hrest, bind, Except.bind] at hrun
        cases hrun
      · simp only [hset, hrest, bind, Except.bind] at hrun
        obtain rfl : t₂ = t' := congrArg Prod.fst (Except.ok.inj hrun)
        have htail := ih (fun n' hn' => hl n' (mem_cons_of_mem _ hn')) hrest
        rw [flatMap_cons, append_assoc, flatMap_cons, append_assoc]
        refine (bcreadKtabk_takes ctx hkey st).bind ((bcreadKtabk_takes ctx hval st).bind ?_)
        simp only [hset]
        exact htail

end readers

theorem applyOps_setsOf_not_mem {ctx : ReadCtx} {k : Val Bytes} {l : List (Node Bytes)}
    (hk : ∀ n ∈ l, reread ctx n.key ≠ k) (m : FMap Bytes) :
    applyOps m (setsOf ctx l) k = m k := by
  induction l generalizing m with
  | nil => rfl
  | cons n l ih =>
    have hstep := ih (fun n' hn' => hk n' (mem_cons_of_mem _ hn'))
      (update m (reread ctx n.key) (reread ctx n.val))
    rw [update_of_ne (hk n (mem_cons_self ..)).symm] at hstep
    exact hstep

theorem applyOps_setsOf_mem {ctx : ReadCtx} {k v : Val Bytes} {l : List (Node Bytes)}
    (hv : ∀ n ∈ l, reread ctx n.key = k → reread ctx n.val = v)
    (hmem : ∃ n ∈ l, reread ctx n.key = k) (m : FMap Bytes) :
    applyOps m (setsOf ctx l) k = v := by
  induction l generalizing m with
  | nil =>
    obtain ⟨n, hn, -⟩ := hmem
    cases hn
  | cons n l ih =>
    change applyOps (update m (reread ctx n.key) (reread ctx n.val)) (setsOf ctx l) k = v
    by_cases hlater : ∃ n' ∈ l, reread ctx n'.key = k
    · exact ih (fun n' hn' => hv n' (mem_cons_of_mem _ hn')) hlater _
    · -- the store of `n` is the last one under `k`
      obtain ⟨n', hn', hkey⟩ := hmem
      obtain rfl : n' = n := by
        rcases mem_cons.mp hn' with rfl | hl
        · rfl
        · exact absurd ⟨n', hl, hkey⟩ hlater
      rw [applyOps_setsOf_not_mem fun n'' hn'' hk => hlater ⟨n'', hn'', hk⟩, hkey,
        update_self]
      exact hv n' hn' hkey

/-! ## The whole table -/

theorem narrayOf_spec (array : List (Val Bytes)) (n : ℕ) :
    narrayOf array n ≤ n ∧ ∀ i, narrayOf array n ≤ i → i < n → (array[i]?).getD .nil = .nil := by
  induction n with
  | zero => exact ⟨le_refl 0, fun i _ hi => absurd hi (by omega)⟩
  | succ n ih =>
    obtain ⟨hle, hnil⟩ := ih
    rw [narrayOf]
    split
    · rename_i hlast
      refine ⟨by omega, fun i hi hin => ?_⟩
      rcases Nat.lt_succ_iff_lt_or_eq.mp hin with hlt | rfl
      · exact hnil i hi hlt
      · exact (Val.isNil_iff _).mp hlast
    · exact ⟨le_refl _, fun i hi hin => absurd hin (by omega)⟩

variable {t : Tab Bytes}

theorem TmplOk.mem_usedNodes (h : TmplOk t) {n : Node Bytes} :
    n ∈ usedNodes t ↔ n ∈ t.node ∧ n.val ≠ .nil := by
  rw [usedNodes, if_pos h.mask_pos, mem_reverse, mem_filter, Bool.not_eq_true',
    Val.isNil_eq_false_iff]

theorem TmplOk.lookup_eq (h : TmplOk t) {n : Node Bytes} (hn : n ∈ t.node) (hk : n.key.IsScript) :
    t.lookup n.key = n.val := by
  rcases hfind : t.node.find? (fun n' => decide (n'.key = n.key)) with _ | n'
  · have hno := find?_eq_none.mp hfind n hn
    simp at hno
  · have hkey : n'.key = n.key := by simpa using find?_some hfind
    obtain rfl := h.key_uniq n hn n' (mem_of_find?_eq_some hfind) hk hkey.symm
    simp [Tab.lookup, hfind]

theorem hsize2hbits_le {n : ℕ} (hn : n ≤ 2 ^ kpMaxHbits) : hsize2hbits n ≤ kpMaxHbits := by
  rw [hsize2hbits]
  split_ifs with h0 h1
  · omega
  · decide
  · rw [fls]
    have hlog : (n - 1).log2 < 26 := (Nat.log2_lt (by omega)).mpr (by
      simp only [kpMaxHbits] at hn
      omega)
    simp only [kpMaxHbits]
    omega

theorem le_pow_hsize2hbits (n : ℕ) : n ≤ 2 ^ hsize2hbits n := by
  rw [hsize2hbits]
  split_ifs with h0 h1
  · omega
  · omega
  · rw [fls, Nat.add_comm]
    have := Nat.lt_log2_self (n := n - 1)
    omega

theorem kpTabNew_ok (garbage : ℕ → Node Bytes) (garbageA : ℕ → Val Bytes) {asize hbits : ℕ}
    (ha : asize ≤ kpMaxAsize) (hb : hbits ≤ kpMaxHbits) :
    ∃ t, kpTabNew garbage garbageA asize hbits = .ok t ∧ t.array.length = asize ∧
      (∀ n ∈ t.node, n = Node.empty) ∧ (1 ≤ hbits → t.node.length = 2 ^ hbits) := by
  -- the array part, before the hash part is added
  obtain ⟨t₀, hnew, harr, hnode, hmask⟩ : ∃ t₀ : Tab Bytes,
      newtab garbage garbageA asize hbits = (if hbits ≠ 0 then newhpart garbage t₀ hbits
        else .ok t₀) ∧ t₀.array.length = asize ∧ t₀.node = [] ∧ t₀.hmask = 0 := by
    by_cases hpos : asize > 0
    · refine ⟨⟨(List.range asize).map garbageA, [], 0, 0, 0⟩, ?_, by simp, rfl, rfl⟩
      simp only [newtab, if_pos hpos, if_neg (show ¬ asize > kpMaxAsize by omega)]
      rfl
    · refine ⟨⟨[], [], 0, 0, 0⟩, ?_, by simp; omega, rfl, rfl⟩
      simp only [newtab, if_neg hpos]
      rfl
  by_cases hb0 : hbits = 0
  · rw [if_neg (not_not.mpr hb0)] at hnew
    refine ⟨clearapart t₀, ?_, by simp [clearapart, harr], ?_, by omega⟩
    · simp only [kpTabNew, hnew, bind, Except.bind]
      rw [if_neg (by simp [clearapart, hmask])]
      rfl
    · simp [clearapart, hnode]
  · let t₁ : Tab Bytes := { t₀ with
      freetop := 2 ^ hbits
      node := (List.range (2 ^ hbits)).map garbage
      hmask := BitVec.ofNat 32 (2 ^ hbits - 1) }
    have hnewh : newhpart garbage t₀ hbits = .ok t₁ := by
      rw [newhpart, if_neg (by omega)]
    rw [if_pos hb0, hnewh] at hnew
    have h2 : 2 ≤ 2 ^ hbits := by
      calc 2 = 2 ^ 1 := rfl
        _ ≤ 2 ^ hbits := Nat.pow_le_pow_right (by omega) (by omega)
    have h26 : 2 ^ hbits ≤ 2 ^ 26 := Nat.pow_le_pow_right (by omega) hb
    have hpos : (clearapart t₁).hmask.toNat > 0 := by
      change (BitVec.ofNat 32 (2 ^ hbits - 1)).toNat > 0
      rw [BitVec.toNat_ofNat, Nat.mod_eq_of_lt (by omega)]
      omega
    refine ⟨clearhpart (clearapart t₁), ?_, ?_, ?_, ?_⟩
    · simp only [kpTabNew, hnew, bind, Except.bind, if_pos hpos]
      rfl
    · simp [clearhpart, clearapart, t₁, harr]
    · simp [clearhpart, clearapart]
    · simp [clearhpart, clearapart, t₁]

theorem content_of_empty (h : ∀ n ∈ t.node, n = Node.empty) (k : Val Bytes) :
    t.content k = ((arrayIndex t k).bind fun i => t.array[i]?).getD .nil := by
  rw [Tab.content]
  rcases arrayIndex t k with _ | i
  · rcases hfind : t.node.find? (fun n => decide (n.key = k)) with _ | n
    · simp [Tab.lookup, hfind]
    · simp [Tab.lookup, hfind, h n (mem_of_find?_eq_some hfind), Node.empty]
  · rfl

theorem reread_eq_script {ctx : ReadCtx} {v k : Val Bytes} (hk : k.IsScript)
    (h : reread ctx v = k) : v = k := by
  cases v with
  | obj t gc =>
    subst h
    cases t <;> exact absurd hk id
  | _ => exact h

theorem asMap_rebuilt {ctx : ReadCtx} {t t₂ : Tab Bytes} (h : TmplOk t) (t₁ : Tab Bytes)
    (harr : t₁.array = t.array.take (narrayOf t.array t.asize))
    (hempty : ∀ n ∈ t₁.node, n = Node.empty)
    (hcont : ∀ k, k.IsKey → t₂.content k = applyOps t₁.content (setsOf ctx (usedNodes t)) k) :
    t₂.asMap = t.asMap := by
  obtain ⟨hnle, hnnil⟩ := narrayOf_spec t.array t.asize
  set narray := narrayOf t.array t.asize
  funext k
  by_cases hk : k.IsScript
  swap
  · rw [Tab.asMap, Tab.asMap, if_neg hk, if_neg hk]
  rw [Tab.asMap, Tab.asMap, if_pos hk, if_pos hk, hcont k hk.isKey]
  by_cases hused : ∃ n ∈ usedNodes t, n.key = k
  · -- a stored pair
    obtain ⟨n, hn, rfl⟩ := hused
    obtain ⟨hnode, hval⟩ := h.mem_usedNodes.mp hn
    have hconst : n.key.IsConst ∧ n.val.IsConst := by
      rcases h.node_const n hnode hval with ⟨-, hc⟩ | ⟨hz, -⟩
      · exact hc
      · cases hkey :
          n.key <;> rw [hkey] at hk hz <;> first | exact absurd hz id | exact absurd hk id
    have hidx : arrayIndex t n.key = none := by
      cases hkey : n.key with
      | num i => simp only [arrayIndex, if_neg (not_lt.mpr (h.key_hash n hnode i hkey))]
      | _ => rfl
    rw [Tab.content, hidx, h.lookup_eq hnode hk]
    refine applyOps_setsOf_mem ?_ ⟨n, hn, hconst.1.reread ctx⟩ _
    intro n' hn' hkey'
    have heq : n.key = n'.key := (reread_eq_script hk hkey').symm
    obtain rfl := h.key_uniq n hnode n' (h.mem_usedNodes.mp hn').1 hk heq
    exact hconst.2.reread ctx
  · -- nothing is stored under `k`
    have hno : ∀ n ∈ usedNodes t, reread ctx n.key ≠ k := fun n hn hkey =>
      hused ⟨n, hn, reread_eq_script hk hkey⟩
    rw [applyOps_setsOf_not_mem hno, content_of_empty hempty, Tab.content]
    rcases hidx : arrayIndex t k with _ | i
    · have hidx₁ : arrayIndex t₁ k = none := by
        cases k with
        | num i =>
          simp only [arrayIndex] at hidx ⊢
          split_ifs at hidx with hlt
          rw [if_neg]
          rw [Tab.asize, harr, length_take]
          omega
        | _ => rfl
      have hlook : t.lookup k = .nil := by
        by_cases hex : ∃ n ∈ t.node, n.key = k
        · obtain ⟨n, hn, rfl⟩ := hex
          rw [h.lookup_eq hn hk]
          by_contra hval
          exact hused ⟨n, h.mem_usedNodes.mpr ⟨hn, hval⟩, rfl⟩
        · refine Tab.lookup_eq_nil fun i hi => ?_
          rcases hget : t.node[i]? with _ | n
          · simp only [Tab.keyAt, hget] at hi
            subst hi
            exact hk
          · exact hex ⟨n, mem_of_getElem? hget, by simpa [Tab.keyAt, hget] using hi⟩
      simp [hidx₁, hlook]
    · -- a slot of the array part
      have hidx₁ : arrayIndex t₁ k = if i < narray then some i else none := by
        cases k with
        | num n =>
          simp only [arrayIndex] at hidx ⊢
          split_ifs at hidx with hlt
          cases hidx
          have hasize : t₁.asize = narray := by
            rw [Tab.asize, harr, length_take]
            exact min_eq_left hnle
          rw [hasize]
        | _ => cases hidx
      have hlt : i < t.asize := arrayIndex_lt hidx
      rw [hidx₁]
      by_cases hin : i < narray
      · simp [harr, getElem?_take, hin]
      · simp [if_neg hin, hnnil i (by omega) hlt]

theorem runOps_setsOf (ctx : ReadCtx) {t t₀ : Tab Bytes} (h : TmplOk t) (t₁ : Tab Bytes)
    (hnew : kpTabNew ctx.garbage ctx.garbageA t₁.array.length (hsize2hbits (usedNodes t).length) =
      .ok t₀)
    (hnodes : 1 ≤ hsize2hbits (usedNodes t).length →
      t₀.node.length = 2 ^ hsize2hbits (usedNodes t).length)
    (ht₁ : t₁ = { t₀ with array := t₁.array }) :
    ∃ t₂ es, runOps ctx.ks t₁ (setsOf ctx (usedNodes t)) = .ok (t₂, es) ∧
      ∀ k, k.IsKey → t₂.content k = applyOps t₁.content (setsOf ctx (usedNodes t)) k := by
  by_cases hnil : (usedNodes t).length = 0
  · have : usedNodes t = [] := length_eq_zero_iff.mp hnil
    rw [this]
    exact ⟨t₁, [], rfl, fun k _ => rfl⟩
  · have hb : 1 ≤ hsize2hbits (usedNodes t).length := by
      rw [hsize2hbits, if_neg hnil]
      split <;> omega
    obtain ⟨hinv₀, hkeys₀, -⟩ := kpTabNew_spec hb hnew
    have hasize : t₁.array.length < 2 ^ 32 := by
      have hlen : t₁.array.length ≤ kpMaxAsize := by
        rcases htab : newtab ctx.garbage ctx.garbageA t₁.array.length
          (hsize2hbits (usedNodes t).length) with e | t'
        · simp [kpTabNew, htab, bind, Except.bind] at hnew
        · exact (newtab_eq_ok hb htab).2.1
      simp only [kpMaxAsize] at hlen
      omega
    have hinv₁ : t₁.Inv := by
      rw [ht₁]
      exact ⟨hinv₀.size, hinv₀.mask_pos, hasize, hinv₀.isKey, hinv₀.scatter⟩
    have hops : ∀ op ∈ setsOf ctx (usedNodes t), op.KeyOk := by
      intro op hop
      obtain ⟨n, hn, rfl⟩ := mem_map.mp hop
      obtain ⟨hnode, hval⟩ := h.mem_usedNodes.mp hn
      rcases h.node_const n hnode hval with ⟨hs, hc, -⟩ | ⟨hz, -⟩
      · change (reread ctx n.key).IsKey
        rw [hc.reread]
        exact hs.isKey
      · change (reread ctx n.key).IsKey
        cases hkey : n.key <;> rw [hkey] at hz <;> first | exact absurd hz id | skip
        obtain rfl := hz
        trivial
    obtain ⟨t₂, es, hrun, -, href⟩ := runOps_refines ctx.ks hops hinv₁
    refine ⟨t₂, es, hrun, fun k hk => href ?_ t₁.content (fun _ _ => rfl) k hk⟩
    refine runOps_no_overflow ctx.ks hops hinv₁ ?_ hrun
    have hnode₁ : t₁.node = t₀.node := by rw [ht₁]
    have hcount : t₁.keyCount = 0 := by
      rw [Tab.keyCount, Finset.card_eq_zero, Finset.filter_eq_empty_iff]
      intro i _
      have : t₁.keyAt i = t₀.keyAt i := by rw [Tab.keyAt, Tab.keyAt, hnode₁]
      rw [this]
      exact not_not.mpr (hkeys₀ i)
    rw [hcount, hnode₁, hnodes hb, setsOf, length_map, Nat.zero_add]
    exact le_pow_hsize2hbits _

/-- **Template tables** survive the dump: what the reader makes of the bytes of a template is a
table with the same content. -/
theorem bcreadKtab_takes (ctx : ReadCtx) (h : TmplOk t) :
    ∃ t', (∀ st, Takes (bcreadKtab ctx) (bcwriteKtab ctx.be t) st t' st (tabStrs t)) ∧
      t'.asMap = t.asMap := by
  obtain ⟨hnle, -⟩ := narrayOf_spec t.array t.asize
  have hasize := h.asize_le
  have hused := h.used_le
  set narray := narrayOf t.array t.asize with hnarray
  obtain ⟨t₀, hnew, harr₀, hempty₀, hnodes₀⟩ := kpTabNew_ok ctx.garbage ctx.garbageA
    (hnle.trans hasize) (hsize2hbits_le hused)
  set vals := t.array.take narray with hvals
  have hlen : vals.length = narray := by
    rw [hvals, length_take]
    exact min_eq_left hnle
  let t₁ : Tab Bytes := { t₀ with array := vals }
  obtain ⟨t₂, es, hrun, hcont⟩ := runOps_setsOf ctx h t₁
    (by rw [show t₁.array.length = narray from hlen]; exact hnew) hnodes₀ rfl
  refine ⟨t₂, fun st => ?_, asMap_rebuilt h t₁ rfl hempty₀ hcont⟩
  -- the two sizes
  have hnat₁ : (BitVec.ofNat 32 narray).toNat = narray := by
    have hmax : narray ≤ 2 ^ 27 + 1 := hnle.trans hasize
    rw [BitVec.toNat_ofNat]
    exact Nat.mod_eq_of_lt (by omega)
  have hnat₂ : (BitVec.ofNat 32 (usedNodes t).length).toNat = (usedNodes t).length := by
    simp only [kpMaxHbits] at hused
    rw [BitVec.toNat_ofNat]
    exact Nat.mod_eq_of_lt (by omega)
  have hconst : ∀ n ∈ usedNodes t,
      (n.key.IsConst ∨ n.key.IsZeroed) ∧ (n.val.IsConst ∨ n.val.IsZeroed) := by
    intro n hn
    obtain ⟨hnode, hval⟩ := h.mem_usedNodes.mp hn
    rcases h.node_const n hnode hval with ⟨-, hk, hv⟩ | ⟨hk, hv⟩
    · exact ⟨.inl hk, .inl hv⟩
    · exact ⟨.inr hk, .inr hv⟩
  have harray : Takes (readMany (bcreadKtabk ctx) vals.length)
      (vals.flatMap (bcwriteKtabk ctx.be)) st vals st (vals.flatMap Val.strs) := by
    refine Takes.readMany fun v hv => ?_
    have hc : v.IsConst := h.array_const v (mem_of_mem_take hv)
    have hread := bcreadKtabk_takes ctx (.inl hc) st
    rwa [hc.reread] at hread
  rw [hlen] at harray
  refine .bind_reads (fun _ => bcreadUint32_reads ctx.be narray _)
    (.bind_reads (fun _ => bcreadUint32_reads ctx.be (usedNodes t).length _) ?_)
  simp only [hnat₁, hnat₂, hnew]
  exact harray.bind (bcreadHash_takes hconst hrun)

end Ktap
