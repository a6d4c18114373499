import ReadingComment.Ktap.TabOps
import ReadingComment.Lib.Run

/-!
# Traversal, length and overflow (`runtime/kp_tab.c`)

What holds of every table with a hash part after any stores, deletions and clears. An
operation puts a key that has no array slot into at most one node, and no other key
comes to a node (`PlacesKey`); so no node has the key of an array slot, and the position of a
traversal can be computed from its last key.

The traversal then visits the positions of the array part and those of the nodes in
order (`kpTabNext_from`). The length counts the nodes that have a key, also when the key was
deleted, and the traversal those that have a value.
-/

namespace Ktap

open Function Lib List

variable {σ : Type} [DecidableEq σ] [StrObj σ] {t t' : Tab σ} {ks : KState σ}

/-- A table with a hash part after any operations, overflowing ones included. -/
inductive Reached : Tab σ → Prop
  | new {garbage : ℕ → Node σ} {garbageA : ℕ → Val σ} {asize hbits : ℕ} {t : Tab σ} : 1 ≤ hbits →
      kpTabNew garbage garbageA asize hbits = .ok t → Reached t
  | op {t t' : Tab σ} {ks : KState σ} {op : Op σ} {e : Option TabErr} : Reached t →
      op.run ks t = .ok (t', e) → Reached t'

/-! ## Which keys come to nodes -/

omit [DecidableEq σ] [StrObj σ] in
def Tab.Apart (t : Tab σ) : Prop := ∀ i, t.keyAt i ≠ .nil → arrayIndex t (t.keyAt i) = none

/-- No slot of the table is for the key. -/
structure Tab.Absent (t : Tab σ) (k : Val σ) : Prop where
  node : ∀ i, t.keyAt i ≠ k
  array : arrayIndex t k = none

omit [StrObj σ] in
/-- `hnum` counts what can be one more key. -/
def Tab.Counts (t t' : Tab σ) : Prop :=
  (t'.hnum = t.hnum ∧ t'.keyCount = t.keyCount) ∨
    (t'.hnum = t.hnum + 1 ∧ t'.keyCount ≤ t.keyCount + 1)

/-- Each node of the new table has a key of the old one, or the key `k`, which has no array
slot. -/
structure KeysFrom (t t' : Tab σ) (k : Val σ) : Prop where
  asize : t'.array.length = t.array.length
  counts : t.Counts t'
  keys : ∀ i, t'.keyAt i ≠ .nil →
    (∃ j, t'.keyAt i = t.keyAt j) ∨ (t'.keyAt i = k ∧ arrayIndex t k = none)

/-- What a setter does to the keys: the table is full and the key is not in it, or the nodes get
no other key. -/
def PlacesKey (t : Tab σ) (k : Val σ) (r : Except Fault (SetResult σ)) : Prop :=
  (r = .ok (t, none, some .overflow) ∧ t.Full ∧ t.Absent k) ∨
    ∃ t' s, r = .ok (t', some s, none) ∧ KeysFrom t t' k

omit [StrObj σ] in
theorem KeysFrom.refl (t : Tab σ) (k : Val σ) : KeysFrom t t k :=
  ⟨rfl, .inl ⟨rfl, rfl⟩, fun i _ => .inl ⟨i, rfl⟩⟩

omit [StrObj σ] in
theorem KeysFrom.apart {k : Val σ} (h : KeysFrom t t' k) (hapart : t.Apart) : t'.Apart := by
  intro i hi
  rw [arrayIndex_congr h.asize]
  rcases h.keys i hi with ⟨j, hj⟩ | ⟨hk, hidx⟩
  · rw [hj] at hi ⊢
    exact hapart j hi
  · rw [hk]
    exact hidx

omit [DecidableEq σ] [StrObj σ] in
theorem store_keys {v : Val σ} {s : Slot} (h : t.store v s = .ok t') :
    t'.keyAt = t.keyAt ∧ t'.array.length = t.array.length ∧ t'.node.length = t.node.length ∧
      t'.hnum = t.hnum := by
  cases s with
  | array i =>
    rw [Tab.store] at h
    split at h
    · cases h
      exact ⟨rfl, length_set, rfl, rfl⟩
    · cases h
  | node i =>
    by_cases hi : i < t.node.length
    · rw [Tab.store, t.nodeAt_eq hi] at h
      cases h
      exact ⟨by rw [Tab.keyAt_setNode hi, update_eq_self], rfl, t.length_setNode i _, rfl⟩
    · rw [Tab.store, Tab.nodeAt, getElem?_eq_none (Nat.not_lt.mp hi)] at h
      cases h

omit [StrObj σ] in
theorem KeysFrom.store {t'' : Tab σ} {k v : Val σ} {s : Slot} (h : KeysFrom t t' k)
    (hstore : t'.store v s = .ok t'') : KeysFrom t t'' k := by
  obtain ⟨hkeys, hlen, hnode, hhnum⟩ := store_keys hstore
  have hcount : t''.keyCount = t'.keyCount := by rw [Tab.keyCount, Tab.keyCount, hkeys, hnode]
  refine ⟨hlen.trans h.asize, ?_, by rw [hkeys]; exact h.keys⟩
  rw [Tab.Counts, hhnum, hcount]
  exact h.counts

/-! ### Counting insertions -/

omit [DecidableEq σ] in
theorem rechain_hnum {n fuel f : ℕ} (h : rechain n fuel t f = .ok t') : t'.hnum = t.hnum := by
  induction fuel generalizing t f with
  | zero => cases h
  | succ fuel ih =>
    rw [rechain] at h
    obtain ⟨fn, -, h⟩ := bind_eq_ok h
    cases hnext : fn.next with
    | none =>
      rw [hnext] at h
      cases h
      rfl
    | some nn =>
      rw [hnext] at h
      obtain ⟨nnode, -, h⟩ := bind_eq_ok h
      cases hkey : nnode.key with
      | str s =>
        simp only [hkey] at h
        split at h
        · obtain ⟨main, -, h⟩ := bind_eq_ok h
          obtain ⟨nnode', -, h⟩ := bind_eq_ok h
          obtain ⟨main', -, h⟩ := bind_eq_ok h
          exact (ih h).trans rfl
        · exact ih h
      | nil | bool _ | num _ | obj _ _ | eventstr _ | kstack _ _ _ =>
        simp only [hkey] at h
        exact ih h

omit [DecidableEq σ] [StrObj σ] in
theorem placeKey_hnum {key : Val σ} {n : ℕ} {s : Slot} (h : placeKey t key n = .ok (t', s)) :
    t'.hnum = t.hnum + 1 := by
  obtain ⟨nd, -, h⟩ := bind_eq_ok h
  cases h
  rfl

omit [DecidableEq σ] in
theorem moveColliding_hnum {collide n f : ℕ} (h : moveColliding t collide n f = .ok t') :
    t'.hnum = t.hnum := by
  obtain ⟨p, -, h⟩ := bind_eq_ok h
  obtain ⟨pn, -, h⟩ := bind_eq_ok h
  obtain ⟨nd, -, h⟩ := bind_eq_ok h
  exact (rechain_hnum h).trans rfl

omit [DecidableEq σ] [StrObj σ] in
theorem insertChain_hnum {n f : ℕ} (h : insertChain t n f = .ok t') : t'.hnum = t.hnum := by
  obtain ⟨nd, -, h⟩ := bind_eq_ok h
  obtain ⟨fn, -, h⟩ := bind_eq_ok h
  obtain ⟨nd', -, h⟩ := bind_eq_ok h
  cases h
  rfl

omit [DecidableEq σ] in
theorem kpTabNewkey_hnum {key : Val σ} {s : Slot} (h : kpTabNewkey t key = .ok (t', some s)) :
    t'.hnum = t.hnum + 1 := by
  rw [kpTabNewkey] at h
  obtain ⟨nd, -, h⟩ := bind_eq_ok h
  split at h
  · obtain ⟨free, -, h⟩ := bind_eq_ok h
    cases free with
    | none => cases h
    | some freenode =>
      obtain ⟨nd', -, h⟩ := bind_eq_ok h
      simp only at h
      split at h
      · obtain ⟨t₁, hmove, h⟩ := bind_eq_ok h
        obtain ⟨⟨t₂, s₂⟩, hplace, h⟩ := bind_eq_ok h
        cases h
        rw [placeKey_hnum hplace, moveColliding_hnum hmove]
      · obtain ⟨t₁, hins, h⟩ := bind_eq_ok h
        obtain ⟨⟨t₂, s₂⟩, hplace, h⟩ := bind_eq_ok h
        cases h
        rw [placeKey_hnum hplace, insertChain_hnum hins]
  · obtain ⟨⟨t₂, s₂⟩, hplace, h⟩ := bind_eq_ok h
    cases h
    exact placeKey_hnum hplace

theorem foundOrNew_places (h : t.Inv) {k : Val σ} (hk : k.IsKey) (hidx : arrayIndex t k = none)
    {p : Val σ → Bool} (hp : ∀ x, p x = true ↔ x = k) :
    PlacesKey t k (do foundOrNew t k (← walk t p (hashkey t k))) := by
  rcases h.walk_spec hk.ne_nil hp with ⟨i, -, hw⟩ | ⟨hno, hw⟩
  · rw [hw]
    exact .inr ⟨t, .node i, rfl, .refl t k⟩
  · rw [hw]
    rcases kpTabNewkey_spec h hk hno with ⟨he, hfull⟩ | ⟨t', i, he, -, ha, -, -, hgrow, hkeys, -⟩
    · refine .inl ⟨?_, hfull, hno, hidx⟩
      simp only [foundOrNew, he, bind, Except.bind]
      rfl
    · refine .inr ⟨t', .node i, ?_, by rw [ha], .inr ⟨kpTabNewkey_hnum he, hgrow.keyCount_le⟩,
        fun i _ => ?_⟩
      · simp only [foundOrNew, he, bind, Except.bind]
        rfl
      · rcases hkeys i with hi | hi
        · exact .inr ⟨hi, hidx⟩
        · exact .inl hi

theorem tabSetint_places (h : t.Inv) (k : BitVec 32) :
    PlacesKey t (.num (k.setWidth 64)) (tabSetint t k) := by
  rw [tabSetint]
  by_cases hlt : k.toNat < t.asize
  · rw [if_pos hlt]
    exact .inr ⟨t, _, rfl, .refl t _⟩
  · have hk : (k.setWidth 64).toNat = k.toNat := by
      rw [BitVec.toNat_setWidth]
      exact Nat.mod_eq_of_lt (lt_trans k.isLt (by decide))
    have hidx : arrayIndex t (.num (k.setWidth 64)) = none := by
      rw [arrayIndex, hk, if_neg hlt]
    rw [if_neg hlt]
    exact foundOrNew_places h (.num _) hidx (matchNum_iff _)

theorem tabSetstr_places (h : t.Inv) (s : σ) : PlacesKey t (.str s) (tabSetstr t s) :=
  foundOrNew_places h (.str s) rfl (matchStr_iff s)

theorem tabSetgen_places (h : t.Inv) {k : Val σ} (hk : k.IsKey) (hidx : arrayIndex t k = none) :
    PlacesKey t k (tabSetgen t k) :=
  foundOrNew_places h hk hidx fun x => kpObjEqual_iff x k

theorem tabSet_places (h : t.Inv) (ks : KState σ) {k : Val σ} (hk : k.IsKey) :
    PlacesKey t k (tabSet ks t k) := by
  cases k with
  | nil => exact absurd hk id
  | bool b => exact tabSetgen_places h (.bool b) rfl
  | num n =>
    rw [tabSet]
    by_cases hn : n = (n.setWidth 32).setWidth 64
    · rw [if_pos hn]
      have := tabSetint_places h (n.setWidth 32)
      rwa [← hn] at this
    · rw [if_neg hn]
      exact tabSetgen_places h (.num n) (cast_ne h hn)
  | str s => exact tabSetstr_places h s
  | obj tag gc => exact tabSetgen_places h (.obj tag gc) rfl
  | eventstr _ => exact absurd hk id
  | kstack _ _ _ => exact absurd hk id

/-! ## Operations -/

def Op.key (ks : KState σ) : Op σ → Option (Val σ)
  | .set key _ | .incr key _ => storedKey ks key
  | .setint key _ | .incrint key _ => some (.num (key.setWidth 64))
  | .setstr key _ | .incrstr key _ => some (.str key)
  | .clear => none

/-- What an operation does to the keys. -/
structure Op.Keeps (ks : KState σ) (op : Op σ) (t t' : Tab σ) (e : Option TabErr) : Prop where
  /-- an overflow changes nothing, and the table is full and has no slot for the key -/
  overflow : e = some .overflow → t' = t ∧ t.Full ∧ ∃ k, op.key ks = some k ∧ t.Absent k
  asize : t'.array.length = t.array.length
  counts : op ≠ .clear → t.Counts t'
  apart : t.Apart → t'.Apart
  /-- a key is one of before, or the one that is stored -/
  keys : ∀ i, t'.keyAt i ≠ .nil →
    (∃ j, t'.keyAt i = t.keyAt j) ∨ (op.key ks = some (t'.keyAt i))

omit [StrObj σ] in
theorem Op.Keeps.same {op : Op σ} {e : Option TabErr} (he : e ≠ some .overflow) :
    op.Keeps ks t t e :=
  ⟨fun h => absurd h he, rfl, fun _ => .inl ⟨rfl, rfl⟩, id, fun i _ => .inl ⟨i, rfl⟩⟩

omit [StrObj σ] in
theorem PlacesKey.keeps {op : Op σ} {k : Val σ} {r : Except Fault (SetResult σ)} {e : Option TabErr}
    {put : SetResult σ → Except Fault (Tab σ × Option TabErr)} (hr : PlacesKey t k r)
    (hop : op.key ks = some k) (hnone : put (t, none, some .overflow) = .ok (t, some .overflow))
    (hput : ∀ {t₁ : Tab σ} {s : Slot} {t₂ : Tab σ} {e : Option TabErr},
      put (t₁, some s, none) = .ok (t₂, e) →
        e ≠ some .overflow ∧ (t₂ = t₁ ∨ ∃ v, t₁.store v s = .ok t₂))
    (hrun : (do put (← r)) = .ok (t', e)) : op.Keeps ks t t' e := by
  rcases hr with ⟨rfl, hfull, habsent⟩ | ⟨t₁, s, rfl, hkeys⟩
  · obtain ⟨rfl, rfl⟩ := Prod.mk.inj (Except.ok.inj (hnone.symm.trans hrun))
    exact ⟨fun _ => ⟨rfl, hfull, k, hop, habsent⟩, rfl, fun _ => .inl ⟨rfl, rfl⟩, id,
      fun i _ => .inl ⟨i, rfl⟩⟩
  · obtain ⟨he, hstore⟩ := hput hrun
    have hkeys' : KeysFrom t t' k := by
      rcases hstore with rfl | ⟨v, hv⟩
      · exact hkeys
      · exact hkeys.store hv
    refine ⟨fun h => absurd h he, hkeys'.asize, fun _ => hkeys'.counts, hkeys'.apart,
      fun i hi => ?_⟩
    rcases hkeys'.keys i hi with hold | ⟨hk, -⟩
    · exact .inl hold
    · rw [hk]
      exact .inr hop

omit [DecidableEq σ] [StrObj σ] in
theorem putVal_slot {v : Val σ} {s : Slot} {e : Option TabErr}
    (h : putVal (t, some s, none) v = .ok (t', e)) :
    e ≠ some .overflow ∧ (t' = t ∨ ∃ v, t.store v s = .ok t') := by
  rw [putVal] at h
  cases hstore : t.store v s with
  | error err =>
    rw [hstore] at h
    cases h
  | ok t₁ =>
    rw [hstore] at h
    cases h
    exact ⟨by rintro ⟨⟩, .inr ⟨v, hstore⟩⟩

omit [DecidableEq σ] [StrObj σ] in
theorem incrVal_slot {n : Number} {s : Slot} {e : Option TabErr}
    (h : incrVal (t, some s, none) n = .ok (t', e)) :
    e ≠ some .overflow ∧ (t' = t ∨ ∃ v, t.store v s = .ok t') := by
  have hstored : ∀ w : Val σ, (do return (← t.store w s, none) :
      Except Fault (Tab σ × Option TabErr)) = .ok (t', e) →
      e ≠ some .overflow ∧ (t' = t ∨ ∃ v, t.store v s = .ok t') := fun w hw =>
    @putVal_slot σ t t' w s e hw
  rw [incrVal] at h
  cases hload : t.load s with
  | error err =>
    rw [hload] at h
    cases h
  | ok w =>
    rw [hload] at h
    cases w with
    | num m => exact hstored _ h
    | nil => exact hstored _ h
    | bool b | str s | obj tag gc | eventstr stale | kstack depth skip stale =>
      cases h
      exact ⟨by rintro ⟨⟩, .inl rfl⟩

theorem tabSet_refused {key : Val σ} (h : storedKey ks key = none) :
    ∃ e, tabSet ks t key = .ok (t, none, e) ∧ e ≠ some .overflow := by
  cases key with
  | nil => exact ⟨_, rfl, by rintro ⟨⟩⟩
  | bool b | num n | str s | obj tag gc => cases h
  | eventstr stale =>
    rw [storedKey, Option.map_eq_none_iff] at h
    rcases hev : ks.eventStringify with _ | _ | s
    · exact ⟨some .eventContext, by simp only [tabSet, hev]; rfl, by rintro ⟨⟩⟩
    · exact ⟨none, by simp only [tabSet, hev]; rfl, by rintro ⟨⟩⟩
    · rw [hev] at h
      cases h
  | kstack depth skip stale =>
    rw [storedKey, Option.map_eq_none_iff] at h
    exact ⟨none, by simp only [tabSet, h]; rfl, by rintro ⟨⟩⟩

omit [DecidableEq σ] [StrObj σ] in
theorem kpTabClear_keys (hmask : 0 < t.hmask.toNat) (i : ℕ) : (kpTabClear t).keyAt i = .nil := by
  have hpos : (clearapart t).hmask.toNat > 0 := hmask
  rw [kpTabClear, if_pos hpos, Tab.keyAt]
  cases hi :
      (clearhpart { clearapart t with freetop := (clearapart t).hmask.toNat + 1 }).node[i]? with
  | none => rfl
  | some n =>
    rw [clearhpart, getElem?_map, Option.map_eq_some_iff] at hi
    obtain ⟨-, -, rfl⟩ := hi
    rfl

theorem keeps_tabSet (h : t.Inv) {op : Op σ} {key : Val σ} {e : Option TabErr}
    {put : SetResult σ → Except Fault (Tab σ × Option TabErr)} (hop : op.key ks = storedKey ks key)
    (hnone : ∀ e, put (t, none, e) = .ok (t, e))
    (hput : ∀ {t₁ : Tab σ} {s : Slot} {t₂ : Tab σ} {e : Option TabErr},
      put (t₁, some s, none) = .ok (t₂, e) →
        e ≠ some .overflow ∧ (t₂ = t₁ ∨ ∃ v, t₁.store v s = .ok t₂))
    (hrun : (do put (← tabSet ks t key)) = .ok (t', e)) : op.Keeps ks t t' e := by
  cases hkey : storedKey ks key with
  | none =>
    obtain ⟨e', hset, hne⟩ := @tabSet_refused σ _ _ t ks key hkey
    rw [hset] at hrun
    obtain ⟨rfl, rfl⟩ := Prod.mk.inj (Except.ok.inj ((hnone e').symm.trans hrun))
    exact .same hne
  | some k =>
    obtain ⟨hk, heq⟩ := @tabSet_stored σ _ _ ks t key k hkey
    rw [heq] at hrun
    exact (tabSet_places h ks hk).keeps (hop.trans hkey) (hnone _) hput hrun

/-- **Step lemma.** -/
theorem Op.run_keeps (h : t.Inv) {op : Op σ} {e : Option TabErr}
    (hrun : op.run ks t = .ok (t', e)) : op.Keeps ks t t' e := by
  cases op with
  | set key v => exact keeps_tabSet h rfl (fun _ => rfl) putVal_slot hrun
  | incr key n => exact keeps_tabSet h rfl (fun _ => rfl) incrVal_slot hrun
  | setint key v => exact (tabSetint_places h key).keeps rfl rfl putVal_slot hrun
  | incrint key n => exact (tabSetint_places h key).keeps rfl rfl incrVal_slot hrun
  | setstr key v => exact (tabSetstr_places h key).keeps rfl rfl putVal_slot hrun
  | incrstr key n => exact (tabSetstr_places h key).keeps rfl rfl incrVal_slot hrun
  | clear =>
    cases hrun
    have hkeys := kpTabClear_keys h.mask_pos
    have hlen : (kpTabClear t).array.length = t.array.length := by
      have hpos : (clearapart t).hmask.toNat > 0 := h.mask_pos
      rw [kpTabClear, if_pos hpos]
      exact length_map ..
    exact ⟨by rintro ⟨⟩, hlen, fun hne => absurd rfl hne, fun _ i hi => absurd (hkeys i) hi,
      fun i hi => absurd (hkeys i) hi⟩

theorem Reached.inv (h : Reached t) : t.Inv ∧ t.Apart := by
  induction h with
  | new hb hnew =>
    obtain ⟨hinv, hkeys, -⟩ := kpTabNew_spec hb hnew
    exact ⟨hinv, fun i hi => absurd (hkeys i) hi⟩
  | op _ hrun ih =>
    rename_i t t' ks op e _
    obtain ⟨hinv, hapart⟩ := ih
    obtain ⟨t₁, e₁, hrun₁, hinv₁⟩ := change_ok hinv ks op
    obtain ⟨rfl, -⟩ := Prod.mk.inj (Except.ok.inj (hrun₁.symm.trans hrun))
    exact ⟨hinv₁, (Op.run_keeps hinv hrun).apart hapart⟩

theorem Reached.runOps {ops : List (Op σ)} {es : List TabErr} (h : Reached t)
    (hrun : runOps ks t ops = .ok (t', es)) : Reached t' := by
  induction ops generalizing t es with
  | nil =>
    cases hrun
    exact h
  | cons op ops ih =>
    obtain ⟨t₁, e, hop, -⟩ := change_ok h.inv.1 ks op
    rw [Ktap.runOps, hop] at hrun
    cases hrest : Ktap.runOps ks t₁ ops with
    | error err =>
      simp only [bind, Except.bind, hrest] at hrun
      cases hrun
    | ok r =>
      simp only [bind, Except.bind, hrest] at hrun
      cases hrun
      exact ih (.op h hop) hrest

/-! ## Overflow -/

omit [DecidableEq σ] [StrObj σ] in
theorem Op.isKey_key {op : Op σ} {k : Val σ} (h : op.key ks = some k) : k.IsKey := by
  have hstored : ∀ {key : Val σ}, storedKey ks key = some k → k.IsKey := by
    intro key hkey
    cases key with
    | nil => cases hkey
    | bool b | num n | str s | obj tag gc =>
      cases hkey
      trivial
    | eventstr stale | kstack depth skip stale =>
      rw [storedKey, Option.map_eq_some_iff] at hkey
      obtain ⟨s, -, rfl⟩ := hkey
      trivial
  cases op with
  | set key _ | incr key _ => exact hstored h
  | setint key _ | incrint key _ | setstr key _ | incrstr key _ =>
    cases h
    trivial
  | clear => cases h

omit [StrObj σ] in
theorem Tab.Absent.content {k : Val σ} (h : t.Absent k) : t.content k = .nil := by
  rw [Tab.content, h.array]
  exact Tab.lookup_eq_nil h.node

/-- **Overflow.** An operation that reports that the table is full leaves the table as it is:
every key reads the same and a traversal goes the same way. Then every node has a key, and the
key of the operation is in no slot. -/
theorem overflow_atomic (h : Reached t) {op : Op σ}
    (hrun : op.run ks t = .ok (t', some .overflow)) :
    (t' = t ∧ (∀ (ks' : KState σ) (k : Val σ), kpTabGet ks' t' k = kpTabGet ks' t k) ∧
        ∀ k : Val σ, kpTabNext t' k = kpTabNext t k) ∧
      (∀ i, i < t.node.length → t.keyAt i ≠ .nil) ∧
      ∃ k, op.key ks = some k ∧ (∀ i, t.keyAt i ≠ k) ∧
        ∀ ks' : KState σ, kpTabGet ks' t k = .ok (.nil, none) := by
  obtain ⟨hinv, -⟩ := h.inv
  obtain ⟨rfl, hfull, k, hk, habsent⟩ := (Op.run_keeps hinv hrun).overflow rfl
  refine ⟨⟨rfl, fun _ _ => rfl, fun _ => rfl⟩, hfull, k, hk, habsent.node, fun ks' => ?_⟩
  rw [kpTabGet_spec hinv ks' (Op.isKey_key hk), habsent.content]

/-- A table of two nodes with two strings does not take a number. -/
theorem overflow_atomic_two :
    letI : StrObj Bool := ⟨fun _ => 0⟩
    ∃ t : Tab Bool, runOps ⟨none, fun _ _ => none⟩ (blank Bool 0 1)
        [.setstr true (.num 1), .setstr false (.num 2)] = .ok (t, []) ∧
      (Op.setint 0 (.num 5)).run ⟨none, fun _ _ => none⟩ t = .ok (t, some .overflow) ∧
      kpTabGet ⟨none, fun _ _ => none⟩ t (.num 0) = .ok (.nil, none) := by
  let : StrObj Bool := ⟨fun _ => 0⟩
  let ks : KState Bool := ⟨none, fun _ _ => none⟩
  let t : Tab Bool :=
    ⟨[], [⟨.num 1, .str true, some 1⟩, ⟨.num 2, .str false, none⟩], 1, 1, 2⟩
  have hnew : kpTabNew (fun _ => ⟨.bool true, .num 7, some 0⟩) (fun _ => .num 9) 0 1 =
      .ok (blank Bool 0 1) := by decide
  have hruns : runOps ks (blank Bool 0 1) [.setstr true (.num 1), .setstr false (.num 2)] =
      .ok (t, []) := by decide
  have hreached : Reached t := (Reached.new (Nat.le_refl 1) hnew).runOps hruns
  have hrun : (Op.setint 0 (.num 5)).run ks t = .ok (t, some .overflow) := by decide
  obtain ⟨-, -, k, hk, -, hget⟩ := overflow_atomic hreached hrun
  obtain rfl : (.num 0 : Val Bool) = k := Option.some.inj hk
  exact ⟨t, hruns, hrun, hget ks⟩

/-! ## The positions of a traversal -/

section

omit [DecidableEq σ] [StrObj σ]

def Tab.positions (t : Tab σ) : ℕ := t.asize + t.node.length

def Tab.entryAt (t : Tab σ) (p : ℕ) : Val σ × Val σ :=
  if p < t.asize then (.num (BitVec.ofNat 64 p), (t.array[p]?).getD .nil)
  else (t.keyAt (p - t.asize), t.valAt (p - t.asize))

def Tab.shown (t : Tab σ) (p : ℕ) : Option (Val σ × Val σ) :=
  if (t.entryAt p).2.isNil then none else some (t.entryAt p)

end

/-- From a key on, the traversal yields the pairs and then reports its end. -/
inductive Traverses (t : Tab σ) : Val σ → List (Val σ × Val σ) → Prop
  | done {key : Val σ} : kpTabNext t key = .ok (none, false) → Traverses t key []
  | step {key k v : Val σ} {es : List (Val σ × Val σ)} :
      kpTabNext t key = .ok (some (k, v), false) → Traverses t k es → Traverses t key ((k, v) :: es)

section

omit [DecidableEq σ] [StrObj σ]

theorem scan_eq {β : Type} {f : ℕ → Except Fault (Option β)} {g : ℕ → Option β} {n i : ℕ}
    (h : ∀ j, i ≤ j → j < i + n → f j = .ok (g j)) :
    scan f n i = .ok ((List.range' i n).findSome? g) := by
  induction n generalizing i with
  | zero => rfl
  | succ n ih =>
    have hrest := ih (i := i + 1) fun j hj hlt => h j (by omega) (by omega)
    rw [scan, h i (Nat.le_refl i) (by omega), List.range'_succ, findSome?_cons]
    cases g i with
    | some b => rfl
    | none => exact hrest

theorem shown_array {p : ℕ} (hp : p < t.asize) : arrayEntry t p = .ok (t.shown p) := by
  have hget : t.array[p]? = some t.array[p] := getElem?_eq_getElem hp
  rw [arrayEntry_eq hget, Tab.shown, Tab.entryAt, if_pos hp, hget]
  rfl

theorem shown_node {i : ℕ} (hi : i < t.node.length) :
    nodeEntry t i = .ok (t.shown (t.asize + i)) := by
  have hnot : ¬ t.asize + i < t.asize := by omega
  rw [nodeEntry, t.nodeAt_eq hi, Tab.shown, Tab.entryAt, if_neg hnot, Nat.add_sub_cancel_left]
  rfl

theorem Tab.range_positions (t : Tab σ) {p : ℕ} (hp : p ≤ t.positions) :
    List.range' p (t.positions - p) = List.range' p (t.asize - p) ++
      (List.range' (p - t.asize) (t.node.length - (p - t.asize))).map (t.asize + ·) := by
  rw [Tab.positions] at hp ⊢
  rw [map_add_range']
  by_cases hlt : p ≤ t.asize
  · have hbegin : t.asize + (p - t.asize) = p + (t.asize - p) := by omega
    rw [hbegin, List.range'_append_1]
    congr 1
    omega
  · have hnone : t.asize - p = 0 := by omega
    have hbegin : t.asize + (p - t.asize) = p := by omega
    rw [hnone, hbegin, List.range'_zero, nil_append]
    congr 1
    omega

end

/-- **A step of the traversal** finds the first position that has a value. -/
theorem kpTabNext_from (h : t.Inv) {key : Val σ} {p : ℕ} {bad : Bool} (hp : p ≤ t.positions)
    (hidx : keyindexNext t key = .ok (p, bad)) :
    kpTabNext t key = .ok ((List.range' p (t.positions - p)).findSome? t.shown, bad) := by
  have harray : scan (arrayEntry t) (t.asize - p) p =
      .ok ((List.range' p (t.asize - p)).findSome? t.shown) :=
    scan_eq fun j hj hlt => shown_array (by omega)
  have hnodes : scan (nodeEntry t) (t.hmask.toNat + 1 - (p - t.asize)) (p - t.asize) =
      .ok ((List.range' (p - t.asize) (t.node.length - (p - t.asize))).findSome?
        (t.shown ∘ (t.asize + ·))) := by
    rw [← h.size]
    refine scan_eq fun j hj hlt => shown_node ?_
    omega
  rw [t.range_positions hp, findSome?_append, findSome?_map]
  simp only [kpTabNext, hidx, bind, Except.bind, harray, hnodes]
  cases (List.range' p (t.asize - p)).findSome? t.shown with
  | some entry => rfl
  | none => rfl

theorem keyindexNext_shown (h : t.Inv) (hapart : t.Apart) {p : ℕ} {k v : Val σ}
    (hshown : t.shown p = some (k, v)) : keyindexNext t k = .ok (p + 1, false) := by
  rw [Tab.shown, Tab.entryAt] at hshown
  by_cases hlt : p < t.asize
  · rw [if_pos hlt] at hshown
    split at hshown
    · cases hshown
    · cases hshown
      have hp32 := lt_trans hlt h.asize_lt
      have hnum : (BitVec.ofNat 64 p).toNat = p := by
        rw [BitVec.toNat_ofNat]
        exact Nat.mod_eq_of_lt (lt_trans hp32 (by decide))
      exact keyindexNext_array h.asize_lt (by rw [arrayIndex, hnum, if_pos hlt])
  · rw [if_neg hlt] at hshown
    split at hshown
    · cases hshown
    · rename_i hval
      cases hshown
      set i := p - t.asize with hi
      have hkey :
          t.keyAt i ≠ .nil := fun hnil => hval ((Val.isNil_iff _).mpr (h.scatter.virgin i hnil).1)
      have hidx := hapart i hkey
      have hwalk :
          walk t (fun x => kpObjEqual x (t.keyAt i)) (hashkey t (t.keyAt i)) = .ok (some i) := by
        rcases h.walk_spec hkey (fun x => kpObjEqual_iff x _) with ⟨j, hj, hw⟩ | ⟨hno, -⟩
        · obtain rfl : j = i :=
            h.scatter.uniq j i (by rw [show t.view.key j = _ from hj]; exact hkey) hj
          exact hw
        · exact absurd rfl (hno i)
      have hpos : t.asize + i + 1 = p + 1 := by omega
      have hisKey := h.isKey i hkey
      generalize t.keyAt i = k at hkey hidx hwalk hisKey
      rw [← hpos]
      cases k with
      | nil => exact absurd rfl hkey
      | num n =>
        rw [keyindexNext, hwalk, if_neg]
        · rfl
        · rintro ⟨hn, hcast⟩
          have hlow := toNat_of_cast hcast
          rw [arrayIndex, if_pos (hlow ▸ hn)] at hidx
          cases hidx
      | bool b | str s | obj tag gc | eventstr stale | kstack depth skip stale =>
        simp only [keyindexNext, hwalk]
        rfl

theorem traverses_from (h : t.Inv) (hapart : t.Apart) {n p : ℕ} (hp : p + n = t.positions)
    {key : Val σ} (hnext : kpTabNext t key = .ok ((List.range' p n).findSome? t.shown, false)) :
    Traverses t key ((List.range' p n).filterMap t.shown) := by
  induction n generalizing p key with
  | zero => exact .done hnext
  | succ n ih =>
    rw [List.range'_succ, findSome?_cons] at hnext
    rw [List.range'_succ, filterMap_cons]
    cases hshown : t.shown p with
    | none =>
      rw [hshown] at hnext
      exact ih (by omega) hnext
    | some entry =>
      obtain ⟨k, v⟩ := entry
      rw [hshown] at hnext
      have hidx := keyindexNext_shown h hapart hshown
      have hrest := kpTabNext_from h (by omega) hidx
      rw [show t.positions - (p + 1) = n by omega] at hrest
      exact .step hnext (ih (by omega) hrest)

omit [DecidableEq σ] [StrObj σ] in
def Tab.entries (t : Tab σ) : List (Val σ × Val σ) := (List.range' 0 t.positions).filterMap t.shown

theorem traverses_entries (h : t.Inv) (hapart : t.Apart) : Traverses t .nil t.entries :=
  traverses_from h hapart (Nat.zero_add _) (kpTabNext_from h (Nat.zero_le _) rfl)

theorem Traverses.unique {key : Val σ} {es es' : List (Val σ × Val σ)} (h : Traverses t key es)
    (h' : Traverses t key es') : es = es' := by
  induction h generalizing es' with
  | done hnext =>
    cases h' with
    | done _ => rfl
    | step hnext' _ => cases hnext.symm.trans hnext'
  | step hnext _ ih =>
    cases h' with
    | done hnext' => cases hnext.symm.trans hnext'
    | step hnext' htail =>
      cases hnext.symm.trans hnext'
      rw [ih htail]

/-! ## What a traversal yields -/

omit [DecidableEq σ] [StrObj σ] in
theorem mem_entries {e : Val σ × Val σ} :
    e ∈ t.entries ↔ ∃ p < t.positions, t.shown p = some e := by
  simp [Tab.entries]

omit [DecidableEq σ] [StrObj σ] in
theorem shown_eq_some {p : ℕ} {k v : Val σ} :
    t.shown p = some (k, v) ↔ t.entryAt p = (k, v) ∧ v ≠ .nil := by
  rw [Tab.shown]
  constructor
  · intro h
    split at h
    · cases h
    · rename_i hval
      obtain heq := Option.some.inj h
      rw [heq] at hval
      exact ⟨heq, fun hnil => hval ((Val.isNil_iff _).mpr hnil)⟩
  · rintro ⟨heq, hne⟩
    rw [heq, if_neg fun hnil => hne ((Val.isNil_iff _).mp hnil)]

theorem mem_entries_iff (h : t.Inv) (hapart : t.Apart) {k v : Val σ} :
    (k, v) ∈ t.entries ↔ v ≠ .nil ∧ k.IsKey ∧ t.content k = v := by
  rw [mem_entries]
  constructor
  · rintro ⟨p, -, hshown⟩
    obtain ⟨hentry, hne⟩ := shown_eq_some.mp hshown
    rw [Tab.entryAt] at hentry
    by_cases hlt : p < t.asize
    · rw [if_pos hlt] at hentry
      cases hentry
      have hnum : (BitVec.ofNat 64 p).toNat = p := by
        rw [BitVec.toNat_ofNat]
        exact Nat.mod_eq_of_lt (lt_trans (lt_trans hlt h.asize_lt) (by decide))
      refine ⟨hne, trivial, ?_⟩
      rw [Tab.content, arrayIndex, hnum, if_pos hlt]
    · rw [if_neg hlt] at hentry
      cases hentry
      have hkey : t.keyAt (p - t.asize) ≠ .nil := fun hnil => hne (h.scatter.virgin _ hnil).1
      refine ⟨hne, h.isKey _ hkey, ?_⟩
      rw [Tab.content, hapart _ hkey, h.lookup_eq hkey rfl]
  · rintro ⟨hne, hk, hcontent⟩
    rw [Tab.content] at hcontent
    cases hidx : arrayIndex t k with
    | some i =>
      have hlt : i < t.asize := arrayIndex_lt hidx
      obtain ⟨n, rfl, rfl, -⟩ := arrayIndex_eq_some hidx
      refine ⟨n.toNat, Nat.lt_add_right _ hlt, shown_eq_some.mpr ⟨?_, hne⟩⟩
      rw [hidx] at hcontent
      rw [Tab.entryAt, if_pos hlt, BitVec.ofNat_toNat, BitVec.setWidth_eq]
      exact congrArg _ hcontent
    | none =>
      rw [hidx] at hcontent
      obtain ⟨i, hi, hv⟩ := (h.lookup_iff hk.ne_nil hne).mp hcontent
      have hkey : t.keyAt i = k := hi
      have hlt : i < t.node.length := h.scatter.key_lt i (by
        rw [hi]
        exact hk.ne_nil)
      refine ⟨t.asize + i, Nat.add_lt_add_left hlt _, shown_eq_some.mpr ⟨?_, hne⟩⟩
      have hnot : ¬ t.asize + i < t.asize := by omega
      rw [Tab.entryAt, if_neg hnot, Nat.add_sub_cancel_left, hkey]
      exact congrArg _ hv

theorem nodup_entries (h : t.Inv) (hapart : t.Apart) : (t.entries.map Prod.fst).Nodup := by
  rw [Tab.entries, map_filterMap]
  refine List.Nodup.filterMap ?_ (nodup_range' ..)
  intro p p' k hk hk'
  obtain ⟨⟨k₁, v⟩, hshown, rfl⟩ := Option.map_eq_some_iff.mp hk
  obtain ⟨⟨k₂, v'⟩, hshown', heq⟩ := Option.map_eq_some_iff.mp hk'
  obtain rfl : k₂ = k₁ := heq
  have hidx := keyindexNext_shown h hapart hshown
  rw [keyindexNext_shown h hapart hshown'] at hidx
  have hsucc : p' + 1 = p + 1 := (Prod.mk.inj (Except.ok.inj hidx)).1
  exact (Nat.succ.inj hsucc).symm

theorem kpTabGet_forall_iff (h : t.Inv) {k v : Val σ} (hv : v ≠ .nil) :
    (∀ ks : KState σ, kpTabGet ks t k = .ok (v, none)) ↔ k.IsKey ∧ t.content k = v := by
  have hget : ∀ {ks : KState σ} {k : Val σ}, k.IsKey →
      (kpTabGet ks t k = .ok (v, none) ↔ t.content k = v) := by
    intro ks k hk
    rw [kpTabGet_spec h ks hk]
    exact ⟨fun heq => (Prod.mk.inj (Except.ok.inj heq)).1, fun heq => by rw [heq]⟩
  constructor
  · intro hall
    have hfirst := hall ⟨none, fun _ _ => none⟩
    cases k with
    | nil =>
      cases hfirst
      exact absurd rfl hv
    | eventstr stale => cases hfirst
    | kstack depth skip stale =>
      rw [kpTabGet_kstack h] at hfirst
      cases hfirst
      exact absurd rfl hv
    | bool b => exact ⟨.bool b, (hget (.bool b)).mp hfirst⟩
    | num n => exact ⟨.num n, (hget (.num n)).mp hfirst⟩
    | str s => exact ⟨.str s, (hget (.str s)).mp hfirst⟩
    | obj tag gc => exact ⟨.obj tag gc, (hget (.obj tag gc)).mp hfirst⟩
  · rintro ⟨hk, hcontent⟩ ks
    exact (hget hk).mpr hcontent

/-- **The traversal is complete**: from a nil key on, with each key fed back, it yields every key
that holds a value once, with that value, and nothing else, and then reports its end. -/
theorem traversal_complete (h : Reached t) :
    ∃ es, Traverses t .nil es ∧ (es.map Prod.fst).Nodup ∧
      ∀ k v, (k, v) ∈ es ↔ v ≠ .nil ∧ ∀ ks : KState σ, kpTabGet ks t k = .ok (v, none) := by
  obtain ⟨hinv, hapart⟩ := h.inv
  refine ⟨t.entries, traverses_entries hinv hapart, nodup_entries hinv hapart, fun k v => ?_⟩
  rw [mem_entries_iff hinv hapart, and_congr_right_iff]
  exact fun hv => (kpTabGet_forall_iff hinv hv).symm

/-- A table with a number in its array part, two colliding strings and a deleted number. -/
theorem traversal_complete_colliding :
    letI : StrObj Bool := ⟨fun _ => 0⟩
    ∃ t : Tab Bool, runOps ⟨none, fun _ _ => none⟩ (blank Bool 2 2)
        [.setstr true (.num 1), .setint 1 (.num 5), .setint 9 (.num 2), .setstr false (.num 3),
          .setint 9 .nil] = .ok (t, []) ∧
      ∃ es, Traverses t .nil es ∧ (.num 1, .num 5) ∈ es ∧ ∀ v, (.num 9, v) ∉ es := by
  let : StrObj Bool := ⟨fun _ => 0⟩
  let ks : KState Bool := ⟨none, fun _ _ => none⟩
  let ops : List (Op Bool) := [.setstr true (.num 1), .setint 1 (.num 5), .setint 9 (.num 2),
    .setstr false (.num 3), .setint 9 .nil]
  have hnew : kpTabNew (fun _ => ⟨.bool true, .num 7, some 0⟩) (fun _ => .num 9) 2 2 =
      .ok (blank Bool 2 2) := by decide
  let t : Tab Bool := ⟨[.nil, .num 5], [⟨.num 1, .str true, some 3⟩, ⟨.nil, .num 9, none⟩,
    Node.empty, ⟨.num 3, .str false, none⟩], 3, 3, 3⟩
  have hruns : runOps ks (blank Bool 2 2) ops = .ok (t, []) := by decide
  have hnine : kpTabGet ks t (.num 9) = .ok (.nil, none) := by decide
  have hreached : Reached t := (Reached.new (by decide) hnew).runOps hruns
  obtain ⟨es, hes, -, hiff⟩ := traversal_complete hreached
  refine ⟨t, hruns, es, hes, (hiff _ _).mpr ⟨nofun, fun ks' => rfl⟩, fun v hmem => ?_⟩
  · obtain ⟨hne, hget⟩ := (hiff _ _).mp hmem
    cases (hget ks).symm.trans hnine
    exact hne rfl

/-! ## Length -/

section

omit [DecidableEq σ] [StrObj σ]

def Tab.NoneDeleted (t : Tab σ) : Prop := ∀ i, t.keyAt i ≠ .nil → t.valAt i ≠ .nil

theorem countNodes_eq {n i : ℕ} (h : i + n ≤ t.node.length) :
    countNodes t n i = .ok ((List.range' i n).countP fun j => !(t.keyAt j).isNil) := by
  induction n generalizing i with
  | zero => rfl
  | succ n ih =>
    have hrest := ih (i := i + 1) (by omega)
    rw [countNodes, t.nodeAt_eq (by omega), List.range'_succ, countP_cons]
    simp only [bind, Except.bind, hrest]
    cases (t.keyAt i).isNil with
    | true => rfl
    | false => rfl

theorem shown_isSome (p : ℕ) : (t.shown p).isSome = !(t.entryAt p).2.isNil := by
  rw [Tab.shown]
  cases (t.entryAt p).2.isNil with
  | true => rfl
  | false => rfl

theorem length_entries : t.entries.length = t.array.countP (fun v => !v.isNil) +
    (List.range' 0 t.node.length).countP fun i => !(t.valAt i).isNil := by
  have harray : t.array = (List.range' 0 t.asize).map fun i => (t.array[i]?).getD .nil := by
    refine ext_getElem (by simp) fun i hi _ => ?_
    simp [hi]
  have hsplit := t.range_positions (Nat.zero_le _)
  rw [Nat.zero_sub, Nat.sub_zero, Nat.sub_zero, Nat.sub_zero] at hsplit
  rw [Tab.entries, length_filterMap_eq_countP, hsplit, countP_append, countP_map]
  congr 1
  · conv_rhs => rw [harray, countP_map]
    refine countP_congr fun p hp => ?_
    have hlt : p < t.asize := by simpa using hp
    simp only [Function.comp_apply, shown_isSome, Tab.entryAt, if_pos hlt]
  · refine countP_congr fun i _ => ?_
    have hnot : ¬ t.asize + i < t.asize := by omega
    simp only [Function.comp_apply, shown_isSome, Tab.entryAt, if_neg hnot, Nat.add_sub_cancel_left]

end

omit [DecidableEq σ] in
theorem kpTabLen_eq (h : t.Inv) : kpTabLen t = .ok (t.entries.length +
    (List.range' 0 t.node.length).countP fun i => !(t.keyAt i).isNil && (t.valAt i).isNil) := by
  have hkeys : (List.range' 0 t.node.length).countP (fun i => !(t.keyAt i).isNil) =
      (List.range' 0 t.node.length).countP (fun i => !(t.valAt i).isNil) +
        (List.range' 0 t.node.length).countP fun i => !(t.keyAt i).isNil && (t.valAt i).isNil := by
    rw [countP_eq_countP_filter_add _ _ fun i => !(t.valAt i).isNil, countP_filter,
      countP_filter]
    congr 1
    · refine countP_congr fun i _ => ?_
      -- a node that has a value has a key
      have hvirgin : t.keyAt i = .nil → t.valAt i = .nil := fun hnil => (h.scatter.virgin i hnil).1
      simp only [Bool.and_eq_true, Bool.not_eq_true', Val.isNil_eq_false_iff]
      exact ⟨fun hboth => hboth.2, fun hval => ⟨fun hnil => hval (hvirgin hnil), hval⟩⟩
    · refine countP_congr fun i _ => ?_
      simp only [Bool.not_not]
  rw [kpTabLen, ← h.size, countNodes_eq (by omega), length_entries, Nat.add_assoc, ← hkeys]
  rfl

omit [DecidableEq σ] in
theorem kpTabLen_iff (h : t.Inv) : kpTabLen t = .ok t.entries.length ↔ t.NoneDeleted := by
  rw [kpTabLen_eq h, Except.ok.injEq, Nat.add_eq_left, countP_eq_zero]
  constructor
  · intro hall i hkey hval
    have hlt : i < t.node.length := h.scatter.key_lt i hkey
    refine hall i (by simpa using hlt) ?_
    rw [Bool.and_eq_true, Bool.not_eq_true', Val.isNil_eq_false_iff, Val.isNil_iff]
    exact ⟨hkey, hval⟩
  · intro hnone i _
    rw [Bool.and_eq_true, Bool.not_eq_true', Val.isNil_eq_false_iff, Val.isNil_iff]
    exact fun hboth => hnone i hboth.1 hboth.2

/-! ### Runs that delete no key of a node -/

omit [DecidableEq σ] [StrObj σ] in
def Op.StoresNil : Op σ → Prop
  | .set _ v | .setint _ v | .setstr _ v => v = .nil
  | _ => False

omit [DecidableEq σ] [StrObj σ] in
def Op.DeletesNode (ks : KState σ) (t : Tab σ) (op : Op σ) : Prop :=
  op.StoresNil ∧ ∃ k, op.key ks = some k ∧ arrayIndex t k = none

/-- A table with a hash part after operations none of which stores nil under a key that has no
array slot. -/
inductive ReachedUndeleted : Tab σ → Prop
  | new {garbage : ℕ → Node σ} {garbageA : ℕ → Val σ} {asize hbits : ℕ} {t : Tab σ} : 1 ≤ hbits →
      kpTabNew garbage garbageA asize hbits = .ok t → ReachedUndeleted t
  | op {t t' : Tab σ} {ks : KState σ} {op : Op σ} {e : Option TabErr} : ReachedUndeleted t →
      ¬ op.DeletesNode ks t → op.run ks t = .ok (t', e) → ReachedUndeleted t'

theorem ReachedUndeleted.reached (h : ReachedUndeleted t) : Reached t := by
  induction h with
  | new hb hnew => exact .new hb hnew
  | op _ _ hrun ih => exact .op ih hrun

omit [DecidableEq σ] [StrObj σ] in
theorem storedKey_self {k : Val σ} (hk : k.IsKey) : storedKey ks k = some k := by
  cases k with
  | nil | eventstr _ | kstack _ _ _ => exact absurd hk id
  | bool _ | num _ | str _ | obj _ _ => rfl

section

omit [StrObj σ]

theorem FMap.incr_ne_nil (m : FMap σ) (k : Val σ) (n : Number) : m.incr k n k ≠ .nil := by
  cases hm : m k with
  | num a | nil =>
    simp only [FMap.incr, hm, update_self]
    rintro ⟨⟩
  | bool b | str s | obj tag gc | eventstr stale | kstack depth skip stale =>
    simp only [FMap.incr, hm]
    rintro ⟨⟩

theorem FMap.incr_of_ne (m : FMap σ) {k k' : Val σ} (n : Number) (h : k' ≠ k) :
    m.incr k n k' = m k' := by
  cases hm : m k with
  | num a | nil => simp only [FMap.incr, hm, update_of_ne h]
  | bool b | str s | obj tag gc | eventstr stale | kstack depth skip stale =>
    simp only [FMap.incr, hm]

theorem Op.apply_ne_nil {op : Op σ} (hop : op.KeyOk) (hclear : op ≠ .clear) {m : FMap σ} {k : Val σ}
    (hk : m k ≠ .nil ∨ op.key ks = some k) (hnil : op.StoresNil → op.key ks ≠ some k) :
    op.apply m k ≠ .nil := by
  have hset : ∀ {key v : Val σ}, (v = .nil → key ≠ k) → (m k ≠ .nil ∨ key = k) →
      update m key v k ≠ .nil := by
    intro key v hv hk
    by_cases hkey : k = key
    · subst hkey
      rw [update_self]
      exact fun h => hv h rfl
    · rw [update_of_ne hkey]
      exact hk.resolve_right (Ne.symm hkey)
  have hincr : ∀ {key : Val σ} {n : Number}, (m k ≠ .nil ∨ key = k) → m.incr key n k ≠ .nil := by
    intro key n hk
    by_cases hkey : k = key
    · subst hkey
      exact m.incr_ne_nil _ n
    · rw [m.incr_of_ne n hkey]
      exact hk.resolve_right (Ne.symm hkey)
  cases op with
  | set key v =>
    rw [Op.key, storedKey_self hop] at hk hnil
    exact hset (fun hv heq => hnil hv (congrArg some heq)) (hk.imp_right Option.some.inj)
  | incr key n =>
    rw [Op.key, storedKey_self hop] at hk
    exact hincr (hk.imp_right Option.some.inj)
  | setint key v | setstr key v =>
    exact hset (fun hv heq => hnil hv (congrArg some heq)) (hk.imp_right Option.some.inj)
  | incrint key n | incrstr key n =>
    exact hincr (hk.imp_right Option.some.inj)
  | clear => exact absurd rfl hclear

end

theorem Op.run_stored (ks : KState σ) (t : Tab σ) (op : Op σ) :
    (∃ e, op.run ks t = .ok (t, e)) ∨
      ∃ op' : Op σ, op'.KeyOk ∧ op.run ks t = op'.run ks t ∧ op'.key ks = op.key ks ∧
        (op'.StoresNil ↔ op.StoresNil) := by
  cases op with
  | set key v =>
    cases hkey : storedKey ks key with
    | none =>
      obtain ⟨e, hset, -⟩ := @tabSet_refused σ _ _ t ks key hkey
      refine .inl ⟨e, ?_⟩
      rw [Op.run, kpTabSet, hset]
      rfl
    | some k =>
      obtain ⟨hk, heq⟩ := @tabSet_stored σ _ _ ks t key k hkey
      refine .inr ⟨.set k v, hk, by rw [Op.run, Op.run, kpTabSet, heq]; rfl, ?_, Iff.rfl⟩
      rw [Op.key, Op.key, hkey, storedKey_self hk]
  | incr key n =>
    cases hkey : storedKey ks key with
    | none =>
      obtain ⟨e, hset, -⟩ := @tabSet_refused σ _ _ t ks key hkey
      refine .inl ⟨e, ?_⟩
      rw [Op.run, kpTabIncr, hset]
      rfl
    | some k =>
      obtain ⟨hk, heq⟩ := @tabSet_stored σ _ _ ks t key k hkey
      refine .inr ⟨.incr k n, hk, by rw [Op.run, Op.run, kpTabIncr, heq]; rfl, ?_, Iff.rfl⟩
      rw [Op.key, Op.key, hkey, storedKey_self hk]
  | setint key v => exact .inr ⟨.setint key v, trivial, rfl, rfl, Iff.rfl⟩
  | setstr key v => exact .inr ⟨.setstr key v, trivial, rfl, rfl, Iff.rfl⟩
  | incrint key n => exact .inr ⟨.incrint key n, trivial, rfl, rfl, Iff.rfl⟩
  | incrstr key n => exact .inr ⟨.incrstr key n, trivial, rfl, rfl, Iff.rfl⟩
  | clear => exact .inr ⟨.clear, trivial, rfl, rfl, Iff.rfl⟩

theorem Tab.Apart.content (hapart : t.Apart) (h : t.Inv) {i : ℕ} (hi : t.keyAt i ≠ .nil) :
    t.content (t.keyAt i) = t.valAt i := by
  rw [Tab.content, hapart i hi, h.lookup_eq hi rfl]

/-- **Step lemma.** -/
theorem Tab.NoneDeleted.step (h : t.Inv) (hapart : t.Apart) (hnone : t.NoneDeleted) {op : Op σ}
    {e : Option TabErr} (hdel : ¬ op.DeletesNode ks t) (hrun : op.run ks t = .ok (t', e)) :
    t'.NoneDeleted := by
  rcases Op.run_stored ks t op with ⟨e', hsame⟩ | ⟨op', hop, heq, hkey, hnil⟩
  · obtain ⟨rfl, -⟩ := Prod.mk.inj (Except.ok.inj (hsame.symm.trans hrun))
    exact hnone
  · rw [heq] at hrun
    have hkeeps := Op.run_keeps h hrun
    by_cases he : e = some .overflow
    · obtain ⟨rfl, -⟩ := hkeeps.overflow he
      exact hnone
    · obtain ⟨t₁, e₁, hrun₁, hinv', -, -, hcontent⟩ := Op.run_refines h ks hop
      obtain ⟨rfl, rfl⟩ := Prod.mk.inj (Except.ok.inj (hrun₁.symm.trans hrun))
      intro i hi
      have hapart' := hkeeps.apart hapart
      rw [← hapart'.content hinv' hi, hcontent he t.content (fun _ _ => rfl) _ (hinv'.isKey i hi)]
      have hclear : op' ≠ .clear := by
        rintro rfl
        cases hrun₁
        exact hi (kpTabClear_keys h.mask_pos i)
      refine @Op.apply_ne_nil σ _ ks op' hop hclear t.content _ ?_ fun hstores hk =>
        hdel ⟨hnil.mp hstores, t₁.keyAt i, ?_, ?_⟩
      · refine (hkeeps.keys i hi).imp_left ?_
        rintro ⟨j, hj⟩
        rw [hj] at hi ⊢
        rw [hapart.content h hi]
        exact hnone j hi
      · exact hkey.symm.trans hk
      · rw [← arrayIndex_congr hkeeps.asize]
        exact hapart' i hi

theorem ReachedUndeleted.noneDeleted (h : ReachedUndeleted t) : t.NoneDeleted := by
  induction h with
  | new hb hnew =>
    obtain ⟨-, hkeys, -⟩ := kpTabNew_spec hb hnew
    exact fun i hi => absurd (hkeys i) hi
  | op hreached hdel hrun ih =>
    obtain ⟨hinv, hapart⟩ := hreached.reached.inv
    exact ih.step hinv hapart hdel hrun

/-- **The length** is that of a traversal just when no node has a key whose value is nil, and
so in every run that stores nil only under keys of the array part. -/
theorem length_traversal :
    (∀ (t : Tab σ) (es : List (Val σ × Val σ)), Reached t → Traverses t .nil es →
        (kpTabLen t = .ok es.length ↔ t.NoneDeleted)) ∧
      ∀ (t : Tab σ) (es : List (Val σ × Val σ)), ReachedUndeleted t → Traverses t .nil es →
        kpTabLen t = .ok es.length := by
  have hiff : ∀ (t : Tab σ) (es : List (Val σ × Val σ)), Reached t → Traverses t .nil es →
      (kpTabLen t = .ok es.length ↔ t.NoneDeleted) := by
    intro t es h hes
    obtain ⟨hinv, hapart⟩ := h.inv
    rw [hes.unique (traverses_entries hinv hapart)]
    exact kpTabLen_iff hinv
  exact ⟨hiff, fun t es h hes => (hiff t es h.reached hes).mpr h.noneDeleted⟩

/-- A number that is stored and deleted in the array part, and a string. -/
theorem length_traversal_array :
    letI : StrObj Bool := ⟨fun _ => 0⟩
    ∃ t : Tab Bool, runOps ⟨none, fun _ _ => none⟩ (blank Bool 1 1)
        [.setint 0 (.num 5), .setint 0 .nil, .setstr true (.num 1)] = .ok (t, []) ∧
      Traverses t .nil [(.str true, .num 1)] ∧ kpTabLen t = .ok 1 := by
  let : StrObj Bool := ⟨fun _ => 0⟩
  let ks : KState Bool := ⟨none, fun _ _ => none⟩
  let t₁ : Tab Bool := ⟨[.num 5], List.replicate 2 Node.empty, 2, 1, 0⟩
  let t : Tab Bool := ⟨[.nil], [⟨.num 1, .str true, none⟩, Node.empty], 2, 1, 1⟩
  have hnew : kpTabNew (fun _ => ⟨.bool true, .num 7, some 0⟩) (fun _ => .num 9) 1 1 =
      .ok (blank Bool 1 1) := by decide
  have hone : ReachedUndeleted t₁ := by
    refine @ReachedUndeleted.op Bool _ _ (blank Bool 1 1) t₁ ks (.setint 0 (.num 5)) none
      (.new (Nat.le_refl 1) hnew) ?_ (by decide)
    exact fun hdel => nomatch hdel.1
  have htwo : ReachedUndeleted (blank Bool 1 1) := by
    refine @ReachedUndeleted.op Bool _ _ t₁ _ ks (.setint 0 .nil) none hone ?_ (by decide)
    rintro ⟨-, k, hk, hidx⟩
    cases hk
    cases hidx
  have hall : ReachedUndeleted t := by
    refine @ReachedUndeleted.op Bool _ _ (blank Bool 1 1) t ks (.setstr true (.num 1)) none htwo ?_
      (by decide)
    exact fun hdel => nomatch hdel.1
  have hes : Traverses t .nil [(.str true, .num 1)] := .step (by decide) (.done (by decide))
  exact ⟨t, by decide, hes, (@length_traversal Bool _ _).2 t _ hall hes⟩

/-- A string that is stored and deleted is counted. -/
theorem length_deleted :
    letI : StrObj Bool := ⟨fun _ => 0⟩
    ¬ ∀ (t : Tab Bool) (es : List (Val Bool × Val Bool)), Reached t → Traverses t .nil es →
      kpTabLen t = .ok es.length := by
  let : StrObj Bool := ⟨fun _ => 0⟩
  intro h
  let t : Tab Bool := ⟨[], [⟨.nil, .str true, none⟩, Node.empty], 2, 1, 1⟩
  have hnew : kpTabNew (fun _ => ⟨.bool true, .num 7, some 0⟩) (fun _ => .num 9) 0 1 =
      .ok (blank Bool 0 1) := by decide
  have hruns : runOps ⟨none, fun _ _ => none⟩ (blank Bool 0 1)
      [.setstr true (.num 1), .setstr true .nil] = .ok (t, []) := by decide
  have hreached : Reached t := (Reached.new (Nat.le_refl 1) hnew).runOps hruns
  have hend : kpTabNext t .nil = .ok (none, false) := by decide
  have hlen : kpTabLen t = .ok 1 := by decide
  cases hlen.symm.trans (h t [] hreached (.done hend))

end Ktap
