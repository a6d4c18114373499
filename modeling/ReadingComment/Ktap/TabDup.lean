import ReadingComment.Ktap.TabTraversal
import ReadingComment.Lib.Format

/-!
# Duplicating template tables (`runtime/kp_tab.c`)

A template is what the bytecode reader builds. `kp_tab_dup` copies its array part and stores its
pairs again, into a table of 256 slots and 2048 nodes whatever the size of the template is: a
longer array part is written past the new one, and the pairs beyond the last node are
dropped with a message. A template without a hash part is read as one with one node.

The pairs are stored by operations of `TabMap` (`copyNodes_eq`), so without a message the
duplicate is the map of the template (`dup_content`). The nodes of the duplicate bound the keys that
do not go to its array part, from above (`overflow_card`) and from below (`Copies.card_le`).
-/

namespace Ktap

open Codec Function List

def Template (kt : Tab Bytes) : Prop :=
  ∃ (ctx : ReadCtx) (c c' : Cursor ReadState), bcreadKtab ctx c = .ok (kt, c')

section dup

variable {σ : Type} [DecidableEq σ] [StrObj σ] {t t' kt : Tab σ} {ks : KState σ}

/-- The loop of `kp_tab_dup` over the nodes, with the messages of its stores. -/
def copyNodesErr (ks : KState σ) (kt : Tab σ) : ℕ → ℕ → Tab σ → Except Fault (Tab σ × List TabErr)
  | 0, _, t => .ok (t, [])
  | n + 1, i, t => do
    let knode ← kt.nodeAt i
    if knode.key.isNil then copyNodesErr ks kt n (i + 1) t
    else
      let (t, e) ← kpTabSet ks t knode.key knode.val
      let (t, es) ← copyNodesErr ks kt n (i + 1) t
      return (t, e.toList ++ es)

/-- `kp_tab_dup(ks, kt)`, with the messages that are reported. -/
def kpTabDupErr (garbage : ℕ → Node σ) (garbageA : ℕ → Val σ) (ks : KState σ) (kt : Tab σ) :
    Except Fault (Option (Tab σ × List TabErr)) :=
  match kpTabNewAh garbage garbageA 0 0 with
  | .error _ => .ok none
  | .ok t => do
    let t ← copyArray kt.array 0 t
    let r ← copyNodesErr ks kt (kt.hmask.toNat + 1) 0 t
    return some r

def SameGets (t kt : Tab σ) : Prop :=
  ∀ (ks : KState σ) (k : Val σ), kpTabGet ks t k = kpTabGet ks kt k

/-- Whatever memory holds, the template is duplicated, or no table is returned: the writes stay
inside the new table, and every key reads the same in it. -/
def Copies (kt : Tab σ) : Prop :=
  ∀ (garbage : ℕ → Node σ) (garbageA : ℕ → Val σ) (ks : KState σ),
    kpTabDup garbage garbageA ks kt = .ok none ∨
      ∃ t, kpTabDup garbage garbageA ks kt = .ok (some t) ∧ SameGets t kt

/-- The same, where a table for which a message is reported may lack pairs. -/
def CopiesOrReports (kt : Tab σ) : Prop :=
  ∀ (garbage : ℕ → Node σ) (garbageA : ℕ → Val σ) (ks : KState σ),
    kpTabDupErr garbage garbageA ks kt = .ok none ∨
      ∃ t es, kpTabDupErr garbage garbageA ks kt = .ok (some (t, es)) ∧
        (TabErr.overflow ∉ es → SameGets t kt)

omit [DecidableEq σ] [StrObj σ] in
def Val.Spills : Val σ → Prop
  | .num n => tableNarrEntries.toNat + 1 ≤ n.toNat
  | _ => True

instance : (k : Val σ) → Decidable k.Spills
  | .num n => inferInstanceAs (Decidable (tableNarrEntries.toNat + 1 ≤ n.toNat))
  | .nil | .bool _ | .str _ | .obj .. | .eventstr _ | .kstack .. => isTrue trivial

omit [StrObj σ] in
def Tab.spilled (kt : Tab σ) : ℕ :=
  ((Finset.range kt.node.length).filter fun i => kt.keyAt i ≠ .nil ∧ (kt.keyAt i).Spills).card

omit [StrObj σ] in
def Tab.spilledLive (kt : Tab σ) : ℕ :=
  ((Finset.range kt.node.length).filter fun i => kt.valAt i ≠ .nil ∧ (kt.keyAt i).Spills).card

/-! ## The messages -/

theorem copyNodes_err (n i : ℕ) (t : Tab σ) :
    copyNodes ks kt n i t = (copyNodesErr ks kt n i t).map Prod.fst := by
  induction n generalizing i t with
  | zero => rfl
  | succ n ih =>
    rw [copyNodes, copyNodesErr]
    cases kt.nodeAt i with
    | error err => rfl
    | ok knode =>
      simp only [bind, Except.bind]
      split
      · exact ih (i + 1) t
      · cases kpTabSet ks t knode.key knode.val with
        | error err => rfl
        | ok r =>
          simp only [ih]
          cases copyNodesErr ks kt n (i + 1) r.1 with
          | error err => rfl
          | ok r' => rfl

theorem kpTabDup_err (garbage : ℕ → Node σ) (garbageA : ℕ → Val σ) :
    kpTabDup garbage garbageA ks kt =
      (kpTabDupErr garbage garbageA ks kt).map fun r => r.map Prod.fst := by
  rw [kpTabDup, kpTabDupErr]
  cases kpTabNewAh garbage garbageA 0 0 with
  | error err => rfl
  | ok t =>
    simp only [bind, Except.bind]
    cases copyArray kt.array 0 t with
    | error err => rfl
    | ok t₁ =>
      simp only [copyNodes_err]
      cases copyNodesErr ks kt (kt.hmask.toNat + 1) 0 t₁ with
      | error err => rfl
      | ok r => rfl

/-! ## The stores -/

/-- The pairs of the nodes from node `i` on, as stores. -/
def Tab.storesFrom (kt : Tab σ) (i n : ℕ) : List (Op σ) :=
  (List.range' i n).filterMap fun j =>
    if (kt.keyAt j).isNil then none else some (.set (kt.keyAt j) (kt.valAt j))

theorem copyNodes_eq {n i : ℕ} (hn : i + n ≤ kt.node.length) (t : Tab σ) :
    copyNodesErr ks kt n i t = runOps ks t (kt.storesFrom i n) := by
  induction n generalizing i t with
  | zero => rfl
  | succ n ih =>
    rw [copyNodesErr, kt.nodeAt_eq (by omega), Tab.storesFrom, List.range'_succ, filterMap_cons]
    simp only [bind, Except.bind]
    cases hkey : (kt.keyAt i).isNil with
    | true => exact ih (by omega) t
    | false =>
      simp only [Bool.false_eq_true, if_false, runOps, Op.run, bind, Except.bind]
      cases kpTabSet ks t (kt.keyAt i) (kt.valAt i) with
      | error err => rfl
      | ok r =>
        simp only [ih (i := i + 1) (by omega)]
        rfl

section

omit [DecidableEq σ] [StrObj σ]

theorem mem_storesFrom {i n : ℕ} {op : Op σ} : op ∈ kt.storesFrom i n ↔
    ∃ j, i ≤ j ∧ j < i + n ∧ kt.keyAt j ≠ .nil ∧ op = .set (kt.keyAt j) (kt.valAt j) := by
  rw [Tab.storesFrom, mem_filterMap]
  constructor
  · rintro ⟨j, hj, hop⟩
    rw [mem_range'_1] at hj
    split at hop
    · cases hop
    · rename_i hkey
      exact ⟨j, hj.1, hj.2, fun hnil => hkey ((Val.isNil_iff _).mpr hnil),
        (Option.some.inj hop).symm⟩
  · rintro ⟨j, hij, hjn, hkey, rfl⟩
    refine ⟨j, mem_range'_1.mpr ⟨hij, hjn⟩, ?_⟩
    rw [if_neg fun hnil => hkey ((Val.isNil_iff _).mp hnil)]

/-! ## What the duplicate holds -/

theorem copyArray_eq {vs : List (Val σ)} {i : ℕ} (h : i + vs.length ≤ t.array.length) :
    copyArray vs i t =
      .ok { t with array := t.array.take i ++ vs ++ t.array.drop (i + vs.length) } := by
  induction vs generalizing i t with
  | nil =>
    rw [copyArray, append_nil, length_nil, Nat.add_zero, take_append_drop]
  | cons v vs ih =>
    rw [length_cons] at h
    have hlt : i < t.array.length := by omega
    have hrest := @ih { t with array := t.array.set i v } (i + 1) (by
      rw [length_set]
      omega)
    have htake : (t.array.set i v).take (i + 1) = t.array.take i ++ [v] := by
      rw [take_set, take_succ_eq_append_getElem hlt, set_append_right _ _ (by simp)]
      simp [Nat.min_eq_left hlt.le]
    have hdrop : (t.array.set i v).drop (i + 1 + vs.length) = t.array.drop (i + 1 + vs.length) :=
      drop_set_of_lt (by omega)
    rw [copyArray, Tab.store, if_pos hlt]
    refine hrest.trans ?_
    have hsum : i + (v :: vs).length = i + 1 + vs.length := by
      rw [length_cons]
      omega
    simp only [htake, hdrop, hsum, append_assoc, singleton_append]

def Tab.arrayCopy (kt : Tab σ) : Tab σ :=
  { blank σ 256 11 with array := kt.array ++ List.replicate (256 - kt.asize) .nil }

theorem arrayCopy_asize (hlen : kt.asize ≤ 256) : kt.arrayCopy.array.length = 256 := by
  rw [Tab.arrayCopy, length_append, length_replicate]
  exact Nat.add_sub_cancel' hlen

theorem copyArray_blank (hlen : kt.asize ≤ 256) :
    copyArray kt.array 0 (blank σ 256 11) = .ok kt.arrayCopy := by
  rw [copyArray_eq (by rw [Nat.zero_add, blank, length_replicate]; exact hlen)]
  rw [Tab.arrayCopy, blank, take_zero, nil_append, Nat.zero_add, drop_replicate]

end

theorem arrayCopy_inv (hlen : kt.asize ≤ 256) : kt.arrayCopy.Inv := by
  have hblank : (blank σ 256 11).Inv := (blank_sound (by decide) (by decide)).2 (by decide)
  refine ⟨hblank.size, hblank.mask_pos, ?_, hblank.isKey, hblank.scatter⟩
  rw [arrayCopy_asize hlen]
  decide

omit [DecidableEq σ] [StrObj σ] in
theorem blank_keys (asize hbits i : ℕ) : (blank σ asize hbits).keyAt i = .nil := by
  rw [Tab.keyAt]
  cases hi : (blank σ asize hbits).node[i]? with
  | none => rfl
  | some n =>
    have hmem : n ∈ (blank σ asize hbits).node := mem_of_getElem? hi
    rw [blank] at hmem
    split at hmem
    · cases hmem
    · rw [eq_of_mem_replicate hmem]
      rfl

omit [DecidableEq σ] [StrObj σ] in
theorem arrayCopy_keys (i : ℕ) : kt.arrayCopy.keyAt i = .nil := blank_keys 256 11 i

section

omit [StrObj σ]

theorem arrayCopy_content (hlen : kt.asize ≤ 256) {k : Val σ} (hk : k ≠ .nil) :
    kt.arrayCopy.content k = ((arrayIndex kt k).bind fun i => kt.array[i]?).getD .nil := by
  rw [Tab.content]
  cases hidx : arrayIndex kt.arrayCopy k with
  | none =>
    have hnone : arrayIndex kt k = none := by
      cases k with
      | num n =>
        rw [arrayIndex, Tab.asize, arrayCopy_asize hlen] at hidx
        split at hidx
        · cases hidx
        · rw [arrayIndex, if_neg (by omega)]
      | _ => rfl
    rw [hnone]
    exact Tab.lookup_eq_nil fun i hi => hk (hi.symm.trans (arrayCopy_keys i))
  | some i =>
    obtain ⟨n, rfl, rfl, hlt⟩ := arrayIndex_eq_some hidx
    by_cases hn : n.toNat < kt.asize
    · rw [arrayIndex, if_pos hn]
      simp only [Tab.arrayCopy, Option.bind_some, getElem?_append_left hn]
    · rw [arrayIndex, if_neg hn]
      simp only [Tab.arrayCopy, Option.bind_none, Option.getD_none]
      rw [getElem?_append_right (Nat.not_lt.mp hn), getElem?_replicate]
      split
      · rfl
      · rfl

theorem applyOps_set_of_ne {k : Val σ} {ops : List (Op σ)}
    (hops : ∀ op ∈ ops, ∃ key v, op = .set key v ∧ key ≠ k) (m : FMap σ) :
    applyOps m ops k = m k := by
  induction ops generalizing m with
  | nil => rfl
  | cons op ops ih =>
    obtain ⟨key, v, rfl, hne⟩ := hops op (mem_cons_self ..)
    have hrest := ih (fun op' hop' => hops op' (mem_cons_of_mem _ hop')) (update m key v)
    rwa [update_of_ne hne.symm] at hrest

theorem applyOps_set_of_mem {k v : Val σ} {ops : List (Op σ)}
    (hops : ∀ op ∈ ops, ∃ key w, op = .set key w ∧ (key = k → w = v)) (hmem : .set k v ∈ ops)
    (m : FMap σ) : applyOps m ops k = v := by
  induction ops generalizing m with
  | nil => cases hmem
  | cons op ops ih =>
    have htail : ∀ op' ∈ ops, ∃ key w, op' = Op.set key w ∧ (key = k → w = v) := fun op' hop' =>
      hops op' (mem_cons_of_mem _ hop')
    by_cases hlater : .set k v ∈ ops
    · exact ih htail hlater _
    · -- the first store is the last one under `k`
      obtain rfl : Op.set k v = op := (mem_cons.mp hmem).resolve_right hlater
      refine (applyOps_set_of_ne (fun op' hop' => ?_) (update m k v)).trans
        (update_self ..)
      obtain ⟨key, w, rfl, hw⟩ := htail op' hop'
      refine ⟨key, w, rfl, ?_⟩
      rintro rfl
      exact hlater (hw rfl ▸ hop')

end

theorem applyOps_stores (h : kt.Inv) (hapart : kt.Apart) {m : FMap σ}
    (hm : ∀ k, k ≠ .nil → m k = ((arrayIndex kt k).bind fun i => kt.array[i]?).getD .nil)
    {k : Val σ}
    (hk : k ≠ .nil) : applyOps m (kt.storesFrom 0 kt.node.length) k = kt.content k := by
  by_cases hstored : ∃ i, kt.keyAt i = k
  · obtain ⟨i, hi⟩ := hstored
    have hkey : kt.keyAt i ≠ .nil := by rwa [hi]
    have hlt : i < kt.node.length := h.scatter.key_lt i hkey
    rw [← hi, hapart.content h hkey]
    refine applyOps_set_of_mem (fun op hop => ?_) ?_ m
    · obtain ⟨j, -, -, hj, rfl⟩ := mem_storesFrom.mp hop
      refine ⟨_, _, rfl, fun heq => ?_⟩
      rw [h.scatter.uniq j i hj heq]
    · exact mem_storesFrom.mpr ⟨i, Nat.zero_le _, by rwa [Nat.zero_add], hkey, rfl⟩
  · have hno : ∀ i, kt.keyAt i ≠ k := fun i hi => hstored ⟨i, hi⟩
    rw [applyOps_set_of_ne, hm k hk, Tab.content]
    · cases arrayIndex kt k with
      | none => exact (Tab.lookup_eq_nil hno).symm
      | some i => rfl
    · intro op hop
      obtain ⟨j, -, -, -, rfl⟩ := mem_storesFrom.mp hop
      exact ⟨_, _, rfl, hno j⟩

theorem sameGets_of_content (h : t.Inv) (h' : t'.Inv)
    (hsame : ∀ k, k.IsKey → t.content k = t'.content k) :
    SameGets t t' := by
  have hkey : ∀ (ks : KState σ) (k : Val σ), k.IsKey → kpTabGet ks t k = kpTabGet ks t' k := by
    intro ks k hk
    rw [kpTabGet_spec h ks hk, kpTabGet_spec h' ks hk, hsame k hk]
  intro ks k
  cases k with
  | nil => rfl
  | bool b => exact hkey ks _ (.bool b)
  | num n => exact hkey ks _ (.num n)
  | str s => exact hkey ks _ (.str s)
  | obj tag gc => exact hkey ks _ (.obj tag gc)
  | kstack depth skip stale => rw [kpTabGet_kstack h, kpTabGet_kstack h']
  | eventstr stale =>
    rcases hev : ks.eventStringify with _ | _ | s
    · simp only [kpTabGet, tabGet, hev]
    · simp only [kpTabGet, tabGet, hev]
    · cases stale with
      | none => rw [kpTabGet_stale ⟨rfl, s, hev⟩, kpTabGet_stale ⟨rfl, s, hev⟩]
      | some s' => rw [kpTabGet_eventstr h hev, kpTabGet_eventstr h' hev, hsame _ (.str s')]

/-! ## Room in the duplicate -/

omit [DecidableEq σ] [StrObj σ] in
theorem arrayIndex_eq_none (hlen : t.array.length = 256) (k : Val σ) :
    arrayIndex t k = none ↔ k.Spills := by
  have hentries : tableNarrEntries.toNat + 1 = 256 := rfl
  cases k with
  | num n =>
    rw [arrayIndex, Val.Spills, Tab.asize, hlen, hentries]
    by_cases hn : n.toNat < 256
    · rw [if_pos hn]
      exact ⟨by rintro ⟨⟩, fun h => absurd hn (Nat.not_lt.mpr h)⟩
    · rw [if_neg hn]
      exact ⟨fun _ => Nat.not_lt.mp hn, fun _ => rfl⟩
  | _ => exact ⟨fun _ => trivial, fun _ => rfl⟩

omit [StrObj σ] in
theorem Tab.Full.length_lt [StrObj σ] (h : t.Inv) (hfull : t.Full) {S : Finset (Val σ)}
    (hkeys : ∀ i, t.keyAt i ≠ .nil → t.keyAt i ∈ S) {k : Val σ} (hk : k ∈ S)
    (hno : ∀ i, t.keyAt i ≠ k) :
    t.node.length < S.card := by
  have hinj : Set.InjOn t.keyAt (Finset.range t.node.length : Set ℕ) := by
    intro i hi j _ hij
    exact h.scatter.uniq i j (hfull i (Finset.mem_range.mp hi)) hij
  have hsub : insert k ((Finset.range t.node.length).image t.keyAt) ⊆ S := by
    intro x hx
    rcases Finset.mem_insert.mp hx with rfl | hx
    · exact hk
    · obtain ⟨i, hi, rfl⟩ := Finset.mem_image.mp hx
      exact hkeys i (hfull i (Finset.mem_range.mp hi))
  have hnot : k ∉ (Finset.range t.node.length).image t.keyAt := by
    intro hx
    obtain ⟨i, -, hi⟩ := Finset.mem_image.mp hx
    exact hno i hi
  have hcard := Finset.card_le_card hsub
  rw [Finset.card_insert_of_notMem hnot, Finset.card_image_of_injOn hinj,
    Finset.card_range] at hcard
  exact hcard

/-- **Run lemma.** Stores keep the size of a table, and one of them overflows only when there are
more keys for its nodes than nodes. -/
theorem runOps_stores {S : Finset (Val σ)} {ops : List (Op σ)} {es : List TabErr} (h : t.Inv)
    (hapart : t.Apart) (hkeys : ∀ i, t.keyAt i ≠ .nil → t.keyAt i ∈ S)
    (hops : ∀ op ∈ ops, ∃ k v, op = .set k v ∧ k.IsKey ∧ (arrayIndex t k = none → k ∈ S))
    (hrun : runOps ks t ops = .ok (t', es)) :
    t'.node.length = t.node.length ∧ t'.array.length = t.array.length ∧ t'.Apart ∧
      (TabErr.overflow ∈ es → t.node.length < S.card) := by
  induction ops generalizing t es with
  | nil =>
    cases hrun
    exact ⟨rfl, rfl, hapart, fun hmem => nomatch hmem⟩
  | cons op ops ih =>
    obtain ⟨k, v, rfl, hk, hS⟩ := hops op (mem_cons_self ..)
    obtain ⟨t₁, e, hop, hinv₁, hgrow, -⟩ := Op.run_refines h ks (show (Op.set k v).KeyOk from hk)
    have hkeeps := Op.run_keeps h hop
    have hkey : (Op.set k v).key ks = some k := storedKey_self hk
    have hkeys₁ : ∀ i, t₁.keyAt i ≠ .nil → t₁.keyAt i ∈ S := by
      intro i hi
      rcases hkeeps.keys i hi with ⟨j, hj⟩ | hnew
      · rw [hj] at hi ⊢
        exact hkeys j hi
      · obtain rfl : k = t₁.keyAt i := Option.some.inj (hkey.symm.trans hnew)
        refine hS ?_
        rw [← arrayIndex_congr hkeeps.asize]
        exact hkeeps.apart hapart i hi
    have hops₁ : ∀ op ∈ ops, ∃ k v, op = .set k v ∧ k.IsKey ∧ (arrayIndex t₁ k = none → k ∈ S) := by
      rw [arrayIndex_congr hkeeps.asize]
      exact fun op hop => hops op (mem_cons_of_mem _ hop)
    rw [runOps, hop] at hrun
    cases hrest : runOps ks t₁ ops with
    | error err =>
      simp only [bind, Except.bind, hrest] at hrun
      cases hrun
    | ok r =>
      simp only [bind, Except.bind, hrest] at hrun
      cases hrun
      obtain ⟨hnode, harray, hapart', hover⟩ := ih hinv₁ (hkeeps.apart hapart) hkeys₁ hops₁ hrest
      refine ⟨hnode.trans hgrow.1, harray.trans hkeeps.asize, hapart', fun hmem => ?_⟩
      rcases mem_append.mp hmem with hfirst | hlater
      · obtain ⟨-, hfull, k', hk', habsent⟩ := hkeeps.overflow (Option.mem_toList.mp hfirst)
        obtain rfl : k = k' := Option.some.inj (hkey.symm.trans hk')
        exact hfull.length_lt h hkeys (hS habsent.array) habsent.node
      · rw [← hgrow.1]
        exact hover hlater

/-- **The duplicate of a template with a hash part**, when its array part is short enough. -/
theorem dup_short (h : kt.Inv) (hapart : kt.Apart) (hlen : kt.asize ≤ 256) (garbage : ℕ → Node σ)
    (garbageA : ℕ → Val σ) (ks : KState σ) :
    ∃ t es, kpTabDupErr garbage garbageA ks kt = .ok (some (t, es)) ∧ t.Inv ∧
      t.node.length = 2048 ∧ t.array.length = 256 ∧ (TabErr.overflow ∉ es → SameGets t kt) ∧
      (kt.spilled ≤ 2048 → TabErr.overflow ∉ es) := by
  have hnew : kpTabNewAh garbage garbageA 0 0 = .ok (blank σ 256 11) := by
    rw [kpTabNewAh]
    exact (kpTabNew_eq garbage garbageA 256 11).trans (if_pos (by decide))
  have hinv := arrayCopy_inv hlen
  have hkeyOk : ∀ op ∈ kt.storesFrom 0 kt.node.length, op.KeyOk := by
    intro op hop
    obtain ⟨j, -, -, hj, rfl⟩ := mem_storesFrom.mp hop
    exact h.isKey j hj
  obtain ⟨t, es, hrun, hinv', hcontent⟩ := runOps_refines ks hkeyOk hinv
  -- the keys that need a node
  let S : Finset (Val σ) := ((Finset.range kt.node.length).filter fun i =>
    kt.keyAt i ≠ .nil ∧ (kt.keyAt i).Spills).image kt.keyAt
  have hS : S.card ≤ kt.spilled := Finset.card_image_le
  have hnodes : kt.arrayCopy.node.length = 2048 := by
    change (blank σ 256 11).node.length = 2048
    rw [blank, if_neg (by decide), length_replicate]
    rfl
  obtain ⟨hnode, harray, -, hover⟩ := @runOps_stores σ _ _ kt.arrayCopy t ks S _ es hinv
    (fun i hi => absurd (arrayCopy_keys i) hi) (fun i hi => absurd (arrayCopy_keys i) hi)
    (fun op hop => by
      obtain ⟨j, -, hj, hkey, rfl⟩ := mem_storesFrom.mp hop
      refine ⟨_, _, rfl, h.isKey j hkey, fun hnone => Finset.mem_image_of_mem _ ?_⟩
      rw [Finset.mem_filter, Finset.mem_range]
      exact ⟨by omega, hkey, (arrayIndex_eq_none (arrayCopy_asize hlen) _).mp hnone⟩) hrun
  refine ⟨t, es, ?_, hinv', hnode.trans hnodes, harray.trans (arrayCopy_asize hlen), fun hno => ?_,
    fun hroom hmem => ?_⟩
  · simp only [kpTabDupErr, hnew, bind, Except.bind, copyArray_blank hlen]
    rw [copyNodes_eq (by rw [h.size]; omega), ← h.size, hrun]
    rfl
  · refine sameGets_of_content hinv' h fun k hk => ?_
    rw [hcontent hno kt.arrayCopy.content (fun _ _ => rfl) k hk]
    exact applyOps_stores h hapart (fun k hk => arrayCopy_content hlen hk) hk.ne_nil
  · have := hover hmem
    omega

theorem SameGets.spilledLive_le (hsame : SameGets t kt) (h : t.Inv) (hlen : t.array.length = 256)
    (hkt : kt.Inv) (hapart : kt.Apart) : kt.spilledLive ≤ t.node.length := by
  have hkey : ∀ i, kt.valAt i ≠ .nil → kt.keyAt i ≠ .nil := fun i hval hnil =>
    hval (hkt.scatter.virgin i hnil).1
  have hinj : Set.InjOn kt.keyAt (((Finset.range kt.node.length).filter fun i =>
      kt.valAt i ≠ .nil ∧ (kt.keyAt i).Spills : Finset ℕ) : Set ℕ) := by
    intro i hi j _ hij
    exact hkt.scatter.uniq i j (hkey i (Finset.mem_filter.mp hi).2.1) hij
  have hsub : ((Finset.range kt.node.length).filter fun i =>
      kt.valAt i ≠ .nil ∧ (kt.keyAt i).Spills).image kt.keyAt ⊆
        (Finset.range t.node.length).image t.keyAt := by
    intro k hk
    obtain ⟨i, hi, rfl⟩ := Finset.mem_image.mp hk
    obtain ⟨-, hval, hspills⟩ := Finset.mem_filter.mp hi
    have hisKey := hkt.isKey i (hkey i hval)
    -- the key holds a value in the other table too, in a node
    have hget := hsame ⟨none, fun _ _ => none⟩ (kt.keyAt i)
    rw [kpTabGet_spec h _ hisKey, kpTabGet_spec hkt _ hisKey, hapart.content hkt (hkey i hval),
      Tab.content, (arrayIndex_eq_none hlen _).mpr hspills] at hget
    have hlook : t.lookup (kt.keyAt i) = kt.valAt i := (Prod.mk.inj (Except.ok.inj hget)).1
    obtain ⟨j, hj, -⟩ := (h.lookup_iff (hkey i hval) hval).mp hlook
    have hlt : j < t.node.length := h.scatter.key_lt j (by
      rw [hj]
      exact hkey i hval)
    exact Finset.mem_image.mpr ⟨j, Finset.mem_range.mpr hlt, hj⟩
  calc kt.spilledLive = (((Finset.range kt.node.length).filter fun i =>
        kt.valAt i ≠ .nil ∧ (kt.keyAt i).Spills).image kt.keyAt).card :=
      (Finset.card_image_of_injOn hinj).symm
    _ ≤ ((Finset.range t.node.length).image t.keyAt).card := Finset.card_le_card hsub
    _ ≤ (Finset.range t.node.length).card := Finset.card_image_le
    _ = t.node.length := Finset.card_range _

theorem spilledLive_eq (h : kt.Inv) (hnone : kt.NoneDeleted) : kt.spilledLive = kt.spilled := by
  rw [Tab.spilledLive, Tab.spilled]
  congr 1
  refine Finset.filter_congr fun i _ => ?_
  exact and_congr_left fun _ => ⟨fun hval hnil => hval (h.scatter.virgin i hnil).1, hnone i⟩

end dup

/-! ## Templates -/

theorem bcreadHash_inv {ctx : ReadCtx} {n : ℕ} {t t' : Tab Bytes}
    {c c' : Cursor ReadState} (h : t.Inv) (hapart : t.Apart)
    (hread : bcreadHash ctx n t c = .ok (t', c')) : t'.Inv ∧ t'.Apart := by
  induction n generalizing t c with
  | zero =>
    cases hread
    exact ⟨h, hapart⟩
  | succ n ih =>
    rw [bcreadHash] at hread
    obtain ⟨key, c₁, -, hread⟩ := bind_eq_ok.mp hread
    obtain ⟨val, c₂, -, hread⟩ := bind_eq_ok.mp hread
    obtain ⟨t₁, e, hset, hinv₁⟩ := change_ok h ctx.ks (.set key val)
    have hkeeps := Op.run_keeps h hset
    rw [Op.run] at hset
    simp only [hset] at hread
    exact ih hinv₁ (hkeeps.apart hapart) hread

theorem readMany_length {S E α : Type} {m : Reader S E α} {n : ℕ} {c c' : Cursor S} {as : List α}
    (h : readMany m n c = .ok (as, c')) : as.length = n := by
  induction n generalizing c as with
  | zero =>
    cases h
    rfl
  | succ n ih =>
    rw [readMany] at h
    obtain ⟨a, c₁, -, h⟩ := bind_eq_ok.mp h
    obtain ⟨as', c₂, hrest, h⟩ := bind_eq_ok.mp h
    cases h
    rw [length_cons, ih hrest]

theorem Template.kind {kt : Tab Bytes} (h : Template kt) : (kt.Inv ∧ kt.Apart) ∨ kt.Bare := by
  obtain ⟨ctx, c, c', hread⟩ := h
  rw [bcreadKtab] at hread
  obtain ⟨narray, c₁, -, hread⟩ := bind_eq_ok.mp hread
  obtain ⟨nhash, c₂, -, hread⟩ := bind_eq_ok.mp hread
  rw [kpTabNew_eq] at hread
  by_cases hmax : narray.toNat ≤ kpMaxAsize ∧ hsize2hbits nhash.toNat ≤ kpMaxHbits
  · rw [if_pos hmax] at hread
    obtain ⟨array, c₃, harray, hread⟩ := bind_eq_ok.mp hread
    have hasize : array.length < 2 ^ 32 := by
      rw [readMany_length harray]
      exact narray.isLt
    by_cases hzero : hsize2hbits nhash.toNat = 0
    · have hnone : nhash.toNat = 0 := by
        by_contra hne
        rw [hsize2hbits, if_neg hne] at hzero
        split at hzero
        · cases hzero
        · omega
      rw [hnone] at hread
      cases hread
      exact .inr ⟨rfl, rfl, hasize⟩
    · have hblank := (@blank_sound Bytes _ _ _ _ hmax.1 hmax.2).2 hzero
      have hinv :
          Tab.Inv { blank Bytes narray.toNat (hsize2hbits nhash.toNat) with array := array } :=
        ⟨hblank.size, hblank.mask_pos, hasize, hblank.isKey, hblank.scatter⟩
      exact .inl (bcreadHash_inv hinv (fun i hi => absurd (blank_keys narray.toNat _ i) hi) hread)
  · rw [if_neg hmax] at hread
    cases hread

section

variable {kt : Tab Bytes} (h : Template kt) (hbad : ¬ (kt.hmask ≠ 0 ∧ kt.asize ≤ 256))

include h hbad

theorem Template.dup_error (garbage : ℕ → Node Bytes) (garbageA : ℕ → Val Bytes)
    (ks : KState Bytes) :
    ∃ e, kpTabDup garbage garbageA ks kt = .error e := by
  rcases h.kind with ⟨hinv, -⟩ | hbare
  · exact ⟨_, kpTabDup_long garbage garbageA ks fun hle => hbad ⟨hinv.mask_ne, hle⟩⟩
  · exact hbare.kpTabDup_error garbage garbageA ks

theorem Template.not_copies : ¬ (CopiesOrReports kt ∨ Copies kt) := by
  let garbage : ℕ → Node Bytes := fun _ => Node.empty
  let garbageA : ℕ → Val Bytes := fun _ => .nil
  let ks : KState Bytes := ⟨none, fun _ _ => none⟩
  obtain ⟨e, he⟩ := h.dup_error hbad garbage garbageA ks
  have herr : kpTabDup garbage garbageA ks kt =
      (kpTabDupErr garbage garbageA ks kt).map fun r => r.map Prod.fst :=
        kpTabDup_err garbage garbageA
  rw [he] at herr
  rintro (hc | hc)
  · rcases hc garbage garbageA ks with hno | ⟨t, es, hsome, -⟩
    · rw [hno] at herr
      cases herr
    · rw [hsome] at herr
      cases herr
  · rcases hc garbage garbageA ks with hno | ⟨t, hsome, -⟩
    · cases he.symm.trans hno
    · cases he.symm.trans hsome

end

/-- **Duplicating a template.** The template is duplicated, where pairs may be missing after a
message, if and only if it has a hash part and no more than 256 array slots. No pair is missing when
at most 2048 of its keys need a node, and only then when none of its keys is deleted. -/
theorem kpTabDup_template {kt : Tab Bytes} (h : Template kt) :
    (CopiesOrReports kt ↔ kt.hmask ≠ 0 ∧ kt.asize ≤ 256) ∧
      (kt.NoneDeleted → (Copies kt ↔ kt.hmask ≠ 0 ∧ kt.asize ≤ 256 ∧ kt.spilled ≤ 2048)) ∧
      (kt.hmask ≠ 0 ∧ kt.asize ≤ 256 ∧ kt.spilled ≤ 2048 → Copies kt) ∧
      (Copies kt → kt.hmask ≠ 0 ∧ kt.asize ≤ 256 ∧ kt.spilledLive ≤ 2048) := by
  have hinv : kt.hmask ≠ 0 → kt.Inv ∧ kt.Apart := fun hmask =>
    h.kind.resolve_right fun hbare => hmask hbare.mask
  have hsize : CopiesOrReports kt ∨ Copies kt → kt.hmask ≠ 0 ∧ kt.asize ≤ 256 := fun hcopies =>
    by_contra fun hbad => h.not_copies hbad hcopies
  have hroom : kt.hmask ≠ 0 ∧ kt.asize ≤ 256 ∧ kt.spilled ≤ 2048 → Copies kt := by
    rintro ⟨hmask, hlen, hspilled⟩ garbage garbageA ks
    obtain ⟨t, es, hdup, -, -, -, hsame, hno⟩ :=
      dup_short (hinv hmask).1 (hinv hmask).2 hlen garbage garbageA ks
    exact .inr ⟨t, by rw [kpTabDup_err, hdup]; rfl, hsame (hno hspilled)⟩
  have hlive : Copies kt → kt.hmask ≠ 0 ∧ kt.asize ≤ 256 ∧ kt.spilledLive ≤ 2048 := by
    intro hcopies
    obtain ⟨hmask, hlen⟩ := hsize (.inr hcopies)
    obtain ⟨t, es, hdup, ht, hnode, harray, -, -⟩ := dup_short (hinv hmask).1 (hinv hmask).2 hlen
      (fun _ => Node.empty) (fun _ => .nil) ⟨none, fun _ _ => none⟩
    have hmade :=
      @kpTabDup_err Bytes _ _ kt ⟨none, fun _ _ => none⟩ (fun _ => Node.empty) fun _ => .nil
    rw [hdup] at hmade
    refine ⟨hmask, hlen, ?_⟩
    rcases hcopies (fun _ => Node.empty) (fun _ => .nil) ⟨none, fun _ _ => none⟩ with
      hno | ⟨t', hsome, hsame⟩
    · cases hmade.symm.trans hno
    · obtain rfl : t = t' := Option.some.inj (Except.ok.inj (hmade.symm.trans hsome))
      exact (hsame.spilledLive_le ht harray (hinv hmask).1 (hinv hmask).2).trans_eq hnode
  refine ⟨⟨fun hc => hsize (.inl hc), ?_⟩, fun hdel => ⟨fun hc => ?_, hroom⟩, hroom, hlive⟩
  · rintro ⟨hmask, hlen⟩ garbage garbageA ks
    obtain ⟨t, es, hdup, -, -, -, hsame, -⟩ :=
      dup_short (hinv hmask).1 (hinv hmask).2 hlen garbage garbageA ks
    exact .inr ⟨t, es, hdup, hsame⟩
  · obtain ⟨hmask, hlen, hle⟩ := hlive hc
    exact ⟨hmask, hlen, (spilledLive_eq (hinv hmask).1 hdel).symm.trans_le hle⟩

/-- The template `{[0] = 5, [true] = 7}` is duplicated. -/
theorem kpTabDup_template_pair :
    let kt : Tab Bytes := ⟨[.num 5], [Node.empty, ⟨.num 7, .bool true, none⟩], 2, 1, 1⟩
    Template kt ∧ CopiesOrReports kt ∧ Copies kt := by
  intro kt
  let ctx : ReadCtx := ⟨false, 0, ⟨none, fun _ _ => none⟩, fun _ => Node.empty, fun _ => .nil, 0⟩
  let input : Bytes := bcwriteUint32 false 1 ++ bcwriteUint32 false 1 ++
    bcwriteKtabk false (.num 5) ++ bcwriteKtabk false (.bool true) ++ bcwriteKtabk false (.num 7)
  have hread : (bcreadKtab ctx ⟨input, [], ∅⟩).map Prod.fst = .ok kt := by decide +kernel
  have htmpl : Template kt := by
    rcases hr : bcreadKtab ctx ⟨input, [], ∅⟩ with e | ⟨t, c⟩
    · rw [hr] at hread
      cases hread
    · rw [hr] at hread
      obtain rfl : t = kt := Except.ok.inj hread
      exact ⟨ctx, _, c, hr⟩
  have hmask : kt.hmask ≠ 0 := by decide
  obtain ⟨hreports, -, hroom, -⟩ := kpTabDup_template htmpl
  exact ⟨htmpl, hreports.mpr ⟨hmask, by decide⟩, hroom ⟨hmask, by decide, by decide⟩⟩

/-- The template `{[0] = 5}` has no hash part: its nodes are read all the same. -/
theorem kpTabDup_template_array : ¬ ∀ kt, Template kt → CopiesOrReports kt ∨ Copies kt := by
  intro h
  let kt : Tab Bytes := ⟨[.num 5], [], 0, 0, 0⟩
  let ctx : ReadCtx := ⟨false, 0, ⟨none, fun _ _ => none⟩, fun _ => Node.empty, fun _ => .nil, 0⟩
  let input : Bytes := bcwriteUint32 false 1 ++ bcwriteUint32 false 0 ++ bcwriteKtabk false (.num 5)
  have hread : bcreadKtab ctx ⟨input, [], ∅⟩ = .ok (kt, ⟨[], [], ∅⟩) := rfl
  have htmpl : Template kt := ⟨ctx, _, _, hread⟩
  exact htmpl.not_copies (fun hboth => hboth.1 rfl) (h kt htmpl)

end Ktap
