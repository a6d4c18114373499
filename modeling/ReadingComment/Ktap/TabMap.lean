import ReadingComment.Ktap.TabInv

/-!
# A table is a finite map

The abstract layer of the kernel table: a map from keys to values in which nil stands for "absent".
`Op.run` is what the code does and `Op.apply` what a map does; as long as no operation reports an
overflow the getters read exactly the map, whatever the hashes of the keys are.

`Tab.content` is the map of an intact table. The setters return the slot of the key (`SlotFor`), and
reading and writing through it is reading and updating the map at that key.
-/

namespace Ktap

open Function List

variable {σ : Type} [DecidableEq σ] [StrObj σ]

/-! ## The content of a table -/

def arrayIndex (t : Tab σ) : Val σ → Option ℕ
  | .num n => if n.toNat < t.asize then some n.toNat else none
  | _ => none

def Tab.content (t : Tab σ) (k : Val σ) : Val σ :=
  match arrayIndex t k with
  | some i => (t.array[i]?).getD .nil
  | none => t.lookup k

/-- The slot `s` is where the key `k` lives. -/
inductive SlotFor (t : Tab σ) (k : Val σ) : Slot → Prop where
  | array {i : ℕ} : arrayIndex t k = some i → SlotFor t k (.array i)
  | node {i : ℕ} : arrayIndex t k = none → t.keyAt i = k → SlotFor t k (.node i)

section

omit [DecidableEq σ] [StrObj σ]

theorem arrayIndex_lt {t : Tab σ} {k : Val σ} {i : ℕ} (h : arrayIndex t k = some i) :
    i < t.array.length := by
  cases k <;> simp only [arrayIndex] at h
  case num n =>
    split_ifs at h with hlt
    cases h
    exact hlt
  all_goals cases h

theorem arrayIndex_inj {t : Tab σ} {k k' : Val σ} {i : ℕ} (h : arrayIndex t k = some i)
    (h' : arrayIndex t k' = some i) : k = k' := by
  cases k <;> simp only [arrayIndex] at h
  case num n =>
    cases k' <;> simp only [arrayIndex] at h'
    case num n' =>
      split_ifs at h h'
      have hn : n.toNat = n'.toNat := (Option.some.inj h).trans (Option.some.inj h').symm
      rw [BitVec.eq_of_toNat_eq hn]
    all_goals cases h'
  all_goals cases h

theorem arrayIndex_congr {t t' : Tab σ} (h : t'.array.length = t.array.length) :
    arrayIndex t' = arrayIndex t := by
  funext k
  cases k <;> simp [arrayIndex, h]

end

variable {k : Val σ} {t : Tab σ}

theorem SlotFor.load (h : t.Inv) (hk : k.IsKey) {s : Slot} (hs : SlotFor t k s) :
    t.load s = .ok (t.content k) := by
  cases hs with
  | @array i hi =>
    have hlt := arrayIndex_lt hi
    simp [Tab.load, Tab.content, hi, getElem?_eq_getElem hlt]
  | @node i hi hkey =>
    have hlt : i < t.node.length := h.scatter.key_lt i (show t.keyAt i ≠ .nil by
      rw [hkey]; exact hk.ne_nil)
    rw [Tab.load, t.nodeAt_eq hlt, Tab.content, hi, h.lookup_eq hk.ne_nil hkey]
    rfl

theorem SlotFor.store (h : t.Inv) (hk : k.IsKey) {s : Slot} (hs : SlotFor t k s) (v : Val σ) :
    ∃ t', t.store v s = .ok t' ∧ t'.Inv ∧ t'.node.length = t.node.length ∧ t'.keyAt = t.keyAt ∧
      ∀ k', k'.IsKey → t'.content k' = update t.content k v k' := by
  cases hs with
  | @array i hi =>
    have hlt := arrayIndex_lt hi
    refine ⟨{ t with array := t.array.set i v }, by rw [Tab.store, if_pos hlt], ?_, rfl, rfl, ?_⟩
    · exact ⟨h.size, h.mask_pos, by simpa using h.asize_lt, h.isKey, h.scatter⟩
    · intro k' _
      have hidx : arrayIndex { t with array := t.array.set i v } = arrayIndex t :=
        arrayIndex_congr (by simp)
      by_cases hkk : k' = k
      · subst hkk
        rw [Tab.content, hidx, hi, update_self]
        simp [hlt]
      · rw [update_of_ne hkk, Tab.content, Tab.content, hidx]
        rcases hi' : arrayIndex t k' with _ | j
        · rfl
        · have hij : i ≠ j := by
            rintro rfl
            exact hkk (arrayIndex_inj hi' hi)
          simp [hij]
  | @node i hi hkey =>
    have hne : t.keyAt i ≠ .nil := by rw [hkey]; exact hk.ne_nil
    have hlt : i < t.node.length := h.scatter.key_lt i hne
    set t' := t.setNode i ⟨v, t.keyAt i, t.nextAt i⟩ with ht'
    have hkeys : t'.keyAt = t.keyAt := by
      rw [ht', Tab.keyAt_setNode hlt, update_eq_self]
    have hnext : t'.nextAt = t.nextAt := by
      rw [ht', Tab.nextAt_setNode hlt, update_eq_self]
    have hvals : t'.valAt = update t.valAt i v := Tab.valAt_setNode hlt
    have hlen : t'.node.length = t.node.length := t.length_setNode i _
    have hview : t'.view = { t.view with val := update t.view.val i v } := by
      rw [Tab.view, hkeys, hvals, hnext]
      rfl
    have hinv : t'.Inv := by
      refine ⟨by rw [hlen]; exact h.size, h.mask_pos, h.asize_lt, by rw [hkeys]; exact h.isKey, ?_⟩
      rw [hashkey_congr (show t'.hmask = t.hmask from rfl), hlen, hview]
      exact h.scatter.setVal hne v
    refine ⟨t', by rw [Tab.store, t.nodeAt_eq hlt]; rfl, hinv, hlen, hkeys, ?_⟩
    intro k' hk'
    have hidx : arrayIndex t' = arrayIndex t := arrayIndex_congr rfl
    by_cases hkk : k' = k
    · subst hkk
      rw [Tab.content, hidx, hi, update_self,
        hinv.lookup_eq hk.ne_nil (by rw [hkeys]; exact hkey), hvals, update_self]
    · rw [update_of_ne hkk, Tab.content, Tab.content, hidx]
      rcases arrayIndex t k' with _ | j
      · refine h.lookup_congr hinv hk'.ne_nil fun w _ => ?_
        -- the nodes of the other keys keep their values
        have hnot : ∀ j, t.keyAt j = k' → j ≠ i := by
          rintro j hj rfl
          exact hkk (hj.symm.trans hkey)
        constructor
        · rintro ⟨j, hj, hw⟩
          have hj' : t.keyAt j = k' := by rw [← hkeys]; exact hj
          have hw' : t'.valAt j = w := hw
          rw [hvals, update_of_ne (hnot j hj')] at hw'
          exact ⟨j, hj', hw'⟩
        · rintro ⟨j, hj, hw⟩
          refine ⟨j, by rw [← hj]; exact congrFun hkeys j, ?_⟩
          have : t'.valAt j = t.valAt j := by rw [hvals, update_of_ne (hnot j hj)]
          exact this.trans hw
      · rfl

/-! ## The setters return the slot of their key -/

omit [DecidableEq σ] [StrObj σ] in
theorem Tab.Grows.refl (t : Tab σ) : t.Grows t := ⟨rfl, 0, fun _ hi => .inr hi⟩

omit [DecidableEq σ] [StrObj σ] in
theorem Tab.Grows.of_keys {t t' t'' : Tab σ} (h : t.Grows t')
    (hlen : t''.node.length = t'.node.length) (hkeys : t''.keyAt = t'.keyAt) : t.Grows t'' := by
  obtain ⟨hl, x, hx⟩ := h
  exact ⟨hlen.trans hl, x, fun i hi => hx i (by rwa [hkeys] at hi)⟩

/-- What a setter may return for the key `k`: its slot, in an intact table with the same
content, or an overflow that leaves a full table alone. -/
def SetsSlot (t : Tab σ) (k : Val σ) (r : Except Fault (SetResult σ)) : Prop :=
  (r = .ok (t, none, some .overflow) ∧ t.Full) ∨
    ∃ t' s, r = .ok (t', some s, none) ∧ t'.Inv ∧ SlotFor t' k s ∧ t.Grows t' ∧
      ∀ k', k'.IsKey → t'.content k' = t.content k'

theorem foundOrNew_spec (h : t.Inv) (hk : k.IsKey) (hidx : arrayIndex t k = none) {p : Val σ → Bool}
    (hp : ∀ x, p x = true ↔ x = k) :
    SetsSlot t k (do foundOrNew t k (← walk t p (hashkey t k))) := by
  rcases h.walk_spec hk.ne_nil hp with ⟨i, hi, hw⟩ | ⟨hno, hw⟩
  · rw [hw]
    exact .inr ⟨t, .node i, rfl, h, .node hidx hi, .refl t, fun _ _ => rfl⟩
  · rw [hw]
    rcases kpTabNewkey_spec h hk hno with
      ⟨he, hfull⟩ | ⟨t', i, he, hinv, ha, hkey, hval, hgrow, -, hlook⟩
    · refine .inl ⟨?_, hfull⟩
      simp only [foundOrNew, he, bind, Except.bind]
      rfl
    · have hidx' : arrayIndex t' = arrayIndex t := arrayIndex_congr (by rw [ha])
      refine .inr ⟨t', .node i, ?_, hinv, .node (by rw [hidx']; exact hidx) hkey, hgrow, ?_⟩
      · simp only [foundOrNew, he, bind, Except.bind]
        rfl
      · intro k' hk'
        rw [Tab.content, Tab.content, hidx', ha]
        rcases hi' : arrayIndex t k' with _ | j
        · by_cases hkk : k' = k
          · subst hkk
            rw [Tab.lookup_eq_nil hno, hinv.lookup_eq hk.ne_nil hkey]
            exact hval
          · exact hlook k' hk'.ne_nil hkk
        · rfl

omit [StrObj σ] in
theorem matchNum_iff (k : Number) (x : Val σ) :
    (x.isNumber && decide (x = .num k)) = true ↔ x = .num k := by
  cases x <;> simp [Val.isNumber]

omit [StrObj σ] in
theorem matchStr_iff (s : σ) (x : Val σ) :
    (x.isString && decide (x = .str s)) = true ↔ x = .str s := by
  cases x <;> simp [Val.isString]

theorem tabSetint_spec (h : t.Inv) (k : BitVec 32) :
    SetsSlot t (.num (k.setWidth 64)) (tabSetint t k) := by
  have hk : (k.setWidth 64).toNat = k.toNat := by
    have := k.isLt
    rw [BitVec.toNat_setWidth]
    exact Nat.mod_eq_of_lt (by omega)
  rw [tabSetint]
  by_cases hlt : k.toNat < t.asize
  · rw [if_pos hlt]
    refine .inr ⟨t, _, rfl, h, .array ?_, .refl t, fun _ _ => rfl⟩
    simp [arrayIndex, hk, hlt]
  · rw [if_neg hlt]
    exact foundOrNew_spec h (.num _) (by simp [arrayIndex, hk, hlt]) (matchNum_iff _)

theorem tabSetstr_spec (h : t.Inv) (s : σ) :
    SetsSlot t (.str s) (tabSetstr t s) :=
  foundOrNew_spec h (.str s) rfl (matchStr_iff s)

theorem tabSetgen_spec (h : t.Inv) (hk : k.IsKey) (hidx : arrayIndex t k = none) :
    SetsSlot t k (tabSetgen t k) :=
  foundOrNew_spec h hk hidx fun x => kpObjEqual_iff x k

omit [DecidableEq σ] in
theorem cast_ne (h : t.Inv) {n : Number} (hn : n ≠ (n.setWidth 32).setWidth 64) :
    arrayIndex t (.num n) = none := by
  have hge : 2 ^ 32 ≤ n.toNat := by
    by_contra hlt
    refine hn (BitVec.eq_of_toNat_eq ?_)
    rw [BitVec.toNat_setWidth, BitVec.toNat_setWidth, Nat.mod_eq_of_lt (a := n.toNat) (by omega)]
    exact (Nat.mod_eq_of_lt n.isLt).symm
  have hlt : ¬ n.toNat < t.asize := by
    have := h.asize_lt
    rw [Tab.asize]
    omega
  simp only [arrayIndex, if_neg hlt]

theorem tabSet_spec (h : t.Inv) (ks : KState σ) (hk : k.IsKey) :
    SetsSlot t k (tabSet ks t k) := by
  cases k with
  | nil => exact absurd hk id
  | bool b => exact tabSetgen_spec h (.bool b) rfl
  | num n =>
    rw [tabSet]
    by_cases hn : n = (n.setWidth 32).setWidth 64
    · rw [if_pos hn]
      have := tabSetint_spec h (n.setWidth 32)
      rwa [← hn] at this
    · rw [if_neg hn]
      exact tabSetgen_spec h (.num n) (cast_ne h hn)
  | str s => exact tabSetstr_spec h s
  | obj t' gc => exact tabSetgen_spec h (.obj t' gc) rfl
  | eventstr _ => exact absurd hk id
  | kstack _ _ _ => exact absurd hk id

/-! ## The getters read the map -/

theorem tabGet_walk (h : t.Inv) (hk : k.IsKey) (hidx : arrayIndex t k = none) {p : Val σ → Bool}
    (hp : ∀ x, p x = true ↔ x = k) :
    (do loadFound t (← walk t p (hashkey t k))) = .ok (t.content k) := by
  rcases h.walk_spec hk.ne_nil hp with ⟨i, hi, hw⟩ | ⟨hno, hw⟩
  · rw [hw]
    exact (SlotFor.node hidx hi).load h hk
  · rw [hw, Tab.content, hidx, Tab.lookup_eq_nil hno]
    rfl

theorem kpTabGetint_spec (h : t.Inv) (k : BitVec 32) :
    kpTabGetint t k = .ok (t.content (.num (k.setWidth 64))) := by
  have hk : (k.setWidth 64).toNat = k.toNat := by
    have := k.isLt
    rw [BitVec.toNat_setWidth]
    exact Nat.mod_eq_of_lt (by omega)
  rw [kpTabGetint, tabGetint]
  by_cases hlt : k.toNat < t.asize
  · rw [if_pos hlt]
    exact (SlotFor.array (by simp [arrayIndex, hk, hlt])).load h (.num _)
  · rw [if_neg hlt]
    exact tabGet_walk h (.num _) (by simp [arrayIndex, hk, hlt]) (matchNum_iff _)

theorem kpTabGetstr_spec (h : t.Inv) (s : σ) :
    kpTabGetstr t s = .ok (t.content (.str s)) :=
  tabGet_walk h (.str s) rfl (matchStr_iff s)

theorem genlookup_spec (h : t.Inv) (hk : k.IsKey) (hidx : arrayIndex t k = none) :
    genlookup t k = .ok (t.content k) :=
  tabGet_walk h hk hidx fun x => kpObjEqual_iff x k

theorem kpTabGet_spec (h : t.Inv) (ks : KState σ) (hk : k.IsKey) :
    kpTabGet ks t k = .ok (t.content k, none) := by
  rw [kpTabGet]
  cases k with
  | nil => exact absurd hk id
  | bool b =>
    simp only [tabGet, genlookup_spec h (.bool b) rfl]
    rfl
  | num n =>
    rw [tabGet]
    by_cases hn : n = (n.setWidth 32).setWidth 64
    · have hget := kpTabGetint_spec h (n.setWidth 32)
      rw [← hn, kpTabGetint] at hget
      simp only [if_pos hn, hget]
      rfl
    · simp only [if_neg hn]
      rw [genlookup_spec h (.num n) (cast_ne h hn)]
      rfl
  | str s =>
    have hget := kpTabGetstr_spec h s
    rw [kpTabGetstr] at hget
    rw [tabGet, hget]
    rfl
  | obj t' gc =>
    simp only [tabGet, genlookup_spec h (.obj t' gc) rfl]
    rfl
  | eventstr _ => exact absurd hk id
  | kstack _ _ _ => exact absurd hk id

/-! ## Operations and the map they stand for -/

/-- The operations that change a table. -/
inductive Op (σ : Type) where
  | set (key val : Val σ)
  | setint (key : BitVec 32) (val : Val σ)
  | setstr (key : σ) (val : Val σ)
  | incr (key : Val σ) (n : Number)
  | incrint (key : BitVec 32) (n : Number)
  | incrstr (key : σ) (n : Number)
  | clear

/-- The key of an operation is one that is stored under its own identity. -/
def Op.KeyOk : Op σ → Prop
  | .set k _ | .incr k _ => k.IsKey
  | _ => True

def Op.run (ks : KState σ) (t : Tab σ) : Op σ → Except Fault (Tab σ × Option TabErr)
  | .set k v => kpTabSet ks t k v
  | .setint k v => kpTabSetint t k v
  | .setstr s v => kpTabSetstr t s v
  | .incr k n => kpTabIncr ks t k n
  | .incrint k n => kpTabIncrint t k n
  | .incrstr s n => kpTabIncrstr t s n
  | .clear => .ok (kpTabClear t, none)

/-- The code on a sequence of operations, with the messages it reports on the way. -/
def runOps (ks : KState σ) : Tab σ → List (Op σ) → Except Fault (Tab σ × List TabErr)
  | t, [] => .ok (t, [])
  | t, op :: ops => do
    let (t, e) ← op.run ks t
    let (t, es) ← runOps ks t ops
    return (t, e.toList ++ es)

abbrev FMap (σ : Type) : Type := Val σ → Val σ

/-- Adding `n` under `k`; a value that is not a number stays. -/
def FMap.incr (m : FMap σ) (k : Val σ) (n : Number) : FMap σ :=
  match m k with
  | .num a => Function.update m k (.num (a + n))
  | .nil => Function.update m k (.num n)
  | _ => m

def Op.apply (m : FMap σ) : Op σ → FMap σ
  | .set k v => Function.update m k v
  | .setint k v => Function.update m (.num (k.setWidth 64)) v
  | .setstr s v => Function.update m (.str s) v
  | .incr k n => m.incr k n
  | .incrint k n => m.incr (.num (k.setWidth 64)) n
  | .incrstr s n => m.incr (.str s) n
  | .clear => fun _ => .nil

def applyOps (m : FMap σ) (ops : List (Op σ)) : FMap σ := ops.foldl Op.apply m

/-! ## Each operation refines its map -/

/-- One operation: it does not fault, keeps the table intact, overflows only when the table is
full, and without an overflow turns a table that stands for `m` into one that stands for `m'`. -/
def Refines (t : Tab σ) (m' : FMap σ → FMap σ)
    (r : Except Fault (Tab σ × Option TabErr)) : Prop :=
  ∃ t' e, r = .ok (t', e) ∧ t'.Inv ∧ t.Grows t' ∧ (e = some .overflow → t.Full) ∧
    (e ≠ some .overflow → ∀ m : FMap σ, (∀ k, k.IsKey → t.content k = m k) →
      ∀ k, k.IsKey → t'.content k = m' m k)

theorem putVal_refines (h : t.Inv) (hk : k.IsKey) {r : Except Fault (SetResult σ)}
    (hr : SetsSlot t k r) (v : Val σ) :
    Refines t (fun m => update m k v) (do putVal (← r) v) := by
  rcases hr with ⟨rfl, hfull⟩ | ⟨t', s, rfl, hinv, hslot, hgrow, hsame⟩
  · exact ⟨t, some .overflow, rfl, h, .refl t, fun _ => hfull, fun hne => absurd rfl hne⟩
  · obtain ⟨t'', hstore, hinv'', hlen, hkeys, hcont⟩ := hslot.store hinv hk v
    refine ⟨t'', none, ?_, hinv'', hgrow.of_keys hlen hkeys, by simp, fun _ m hm k' hk' => ?_⟩
    · simp only [putVal, bind, Except.bind, hstore]
      rfl
    · beta_reduce
      rw [hcont k' hk']
      by_cases hkk : k' = k
      · rw [hkk, update_self, update_self]
      · rw [update_of_ne hkk, update_of_ne hkk, hsame k' hk', hm k' hk']

theorem incrVal_refines (h : t.Inv) (hk : k.IsKey) {r : Except Fault (SetResult σ)}
    (hr : SetsSlot t k r) (n : Number) :
    Refines t (fun m => FMap.incr m k n) (do incrVal (← r) n) := by
  rcases hr with ⟨rfl, hfull⟩ | ⟨t', s, rfl, hinv, hslot, hgrow, hsame⟩
  · exact ⟨t, some .overflow, rfl, h, .refl t, fun _ => hfull, fun hne => absurd rfl hne⟩
  · have hload := hslot.load hinv hk
    -- storing `v` where the map stores `v`
    have stored : ∀ v : Val σ, (∀ m : FMap σ, m k = t.content k →
          FMap.incr m k n = update m k v) →
        (do incrVal (← (Except.ok (t', some s, none) : Except Fault (SetResult σ))) n) =
          (do return (← t'.store v s, none)) →
        Refines t (fun m => FMap.incr m k n)
          (do incrVal (← (Except.ok (t', some s, none) : Except Fault (SetResult σ))) n) := by
      intro v hmap hrun
      obtain ⟨t'', hstore, hinv'', hlen, hkeys, hcont⟩ := hslot.store hinv hk v
      refine ⟨t'', none, ?_, hinv'', hgrow.of_keys hlen hkeys, by simp, fun _ m hm k' hk' => ?_⟩
      · rw [hrun, hstore]
        rfl
      · beta_reduce
        rw [hcont k' hk', hmap m (hm k hk).symm]
        by_cases hkk : k' = k
        · rw [hkk, update_self, update_self]
        · rw [update_of_ne hkk, update_of_ne hkk, hsame k' hk', hm k' hk']
    rw [hsame k hk] at hload
    rcases hc : t.content k with _ | b | a | s' | ⟨tg, gc⟩ | st | ⟨d, sk, st⟩
    case nil =>
      refine stored (.num n) (fun m hm => by rw [FMap.incr, hm, hc]) ?_
      simp only [incrVal, bind, Except.bind, hload, hc]
    case num =>
      refine stored (.num (a + n)) (fun m hm => by rw [FMap.incr, hm, hc]) ?_
      simp only [incrVal, bind, Except.bind, hload, hc]
    all_goals
      refine ⟨t', some .incrNonNumber, ?_, hinv, hgrow, by simp, fun _ m hm k' hk' => ?_⟩
      · simp only [incrVal, bind, Except.bind, hload, hc]
        rfl
      · beta_reduce
        have hsame_map : FMap.incr m k n = m := by rw [FMap.incr, ← hm k hk, hc]
        rw [hsame_map, hsame k' hk', hm k' hk']

theorem blank_spec (hsize : t.node.length = t.hmask.toNat + 1) (hmask : 0 < t.hmask.toNat)
    (hasize : t.array.length < 2 ^ 32) (htop : t.freetop = t.node.length)
    (hnode : ∀ n ∈ t.node, n = Node.empty) (harr : ∀ v ∈ t.array, v = Val.nil) :
    t.Inv ∧ (∀ i, t.keyAt i = .nil) ∧ ∀ k, t.content k = .nil := by
  have hget : ∀ i n, t.node[i]? = some n → n = Node.empty := fun i n hi =>
    hnode n (mem_of_getElem? hi)
  have hkey : ∀ i, t.keyAt i = .nil := by
    intro i
    rcases hi : t.node[i]? with _ | n
    · simp [Tab.keyAt, hi]
    · simp [Tab.keyAt, hi, hget i n hi, Node.empty]
  have hval : ∀ i, t.valAt i = .nil := by
    intro i
    rcases hi : t.node[i]? with _ | n
    · simp [Tab.valAt, hi]
    · simp [Tab.valAt, hi, hget i n hi, Node.empty]
  have hnext : ∀ i, t.nextAt i = none := by
    intro i
    rcases hi : t.node[i]? with _ | n
    · simp [Tab.nextAt, hi]
    · simp [Tab.nextAt, hi, hget i n hi, Node.empty]
  refine ⟨⟨hsize, hmask, hasize, fun i hi => absurd (hkey i) hi, ?_⟩, hkey, fun k => ?_⟩
  · exact .empty htop hkey hval hnext
  · rw [Tab.content]
    rcases arrayIndex t k with _ | i
    · rcases hfind : t.node.find? (fun n => decide (n.key = k)) with _ | n
      · simp [Tab.lookup, hfind]
      · simp [Tab.lookup, hfind, hnode n (mem_of_find?_eq_some hfind), Node.empty]
    · rcases hi : t.array[i]? with _ | v
      · simp [hi]
      · simp [hi, harr v (mem_of_getElem? hi)]

theorem kpTabClear_spec (h : t.Inv) :
    (kpTabClear t).Inv ∧ t.Grows (kpTabClear t) ∧ ∀ k, (kpTabClear t).content k = .nil := by
  have hpos : (clearapart t).hmask.toNat > 0 := h.mask_pos
  have hclear : kpTabClear t = clearhpart { clearapart t with freetop := t.hmask.toNat + 1 } := by
    rw [kpTabClear, if_pos hpos]
    rfl
  rw [hclear]
  set t' := clearhpart { clearapart t with freetop := t.hmask.toNat + 1 } with ht'
  have hblank : t'.Inv ∧ (∀ i, t'.keyAt i = .nil) ∧ ∀ k, t'.content k = .nil := by
    rw [ht']
    refine blank_spec ?_ h.mask_pos ?_ ?_ ?_ ?_
    · simpa [clearhpart, clearapart] using h.size
    · simpa [clearhpart, clearapart] using h.asize_lt
    · simpa [clearhpart, clearapart] using h.size.symm
    all_goals simp [clearhpart, clearapart]
  obtain ⟨hinv, hkeys, hnil⟩ := hblank
  refine ⟨hinv, ⟨?_, 0, fun i hi => absurd (hkeys i) hi⟩, hnil⟩
  simp [ht', clearhpart, clearapart]

/-- **Step lemma**: every operation refines its map. -/
theorem Op.run_refines (h : t.Inv) (ks : KState σ) {op : Op σ} (hop : op.KeyOk) :
    Refines t (fun m => op.apply m) (op.run ks t) := by
  cases op with
  | set k v => exact putVal_refines h hop (tabSet_spec h ks hop) v
  | setint k v => exact putVal_refines h (.num _) (tabSetint_spec h k) v
  | setstr s v => exact putVal_refines h (.str s) (tabSetstr_spec h s) v
  | incr k n => exact incrVal_refines h hop (tabSet_spec h ks hop) n
  | incrint k n => exact incrVal_refines h (.num _) (tabSetint_spec h k) n
  | incrstr s n => exact incrVal_refines h (.str s) (tabSetstr_spec h s) n
  | clear =>
    obtain ⟨hinv, hgrow, hnil⟩ := kpTabClear_spec h
    exact ⟨_, none, rfl, hinv, hgrow, by simp, fun _ m _ k _ => hnil k⟩

/-- **Run lemma**: a run never faults, keeps the table intact, and without an overflow ends in
the table that stands for the updated map. -/
theorem runOps_refines (ks : KState σ) {ops : List (Op σ)} (hops : ∀ op ∈ ops, op.KeyOk) :
    ∀ {t : Tab σ}, t.Inv → ∃ t' es, runOps ks t ops = .ok (t', es) ∧ t'.Inv ∧
      (TabErr.overflow ∉ es → ∀ m : FMap σ, (∀ k, k.IsKey → t.content k = m k) →
        ∀ k, k.IsKey → t'.content k = applyOps m ops k) := by
  induction ops with
  | nil =>
    intro t h
    exact ⟨t, [], rfl, h, fun _ m hm k hk => hm k hk⟩
  | cons op ops ih =>
    intro t h
    obtain ⟨t₁, e, hrun, hinv₁, -, -, href⟩ := Op.run_refines h ks (hops op (mem_cons_self ..))
    obtain ⟨t₂, es, hruns, hinv₂, hrefs⟩ :=
      ih (fun op' hop' => hops op' (mem_cons_of_mem _ hop')) hinv₁
    refine ⟨t₂, e.toList ++ es, ?_, hinv₂, fun hno m hm k hk => ?_⟩
    · simp only [runOps, hrun, bind, Except.bind, hruns]
      rfl
    · rw [mem_append, not_or] at hno
      have he : e ≠ some .overflow := by
        rintro rfl
        exact hno.1 (by simp)
      exact hrefs hno.2 _ (href he m hm) k hk

/-! ## Room for keys -/

def Tab.keyCount (t : Tab σ) : ℕ :=
  ((Finset.range t.node.length).filter fun i => t.keyAt i ≠ .nil).card

omit [StrObj σ] in
theorem Tab.Full.keyCount_eq (h : t.Full) : t.keyCount = t.node.length := by
  rw [Tab.keyCount, Finset.filter_true_of_mem, Finset.card_range]
  exact fun i hi => h i (Finset.mem_range.mp hi)

omit [StrObj σ] in
theorem Tab.Grows.keyCount_le {t t' : Tab σ} (h : t.Grows t') : t'.keyCount ≤ t.keyCount + 1 := by
  obtain ⟨hlen, x, hx⟩ := h
  have hsub : ((Finset.range t'.node.length).filter fun i => t'.keyAt i ≠ .nil) ⊆
      insert x ((Finset.range t.node.length).filter fun i => t.keyAt i ≠ .nil) := by
    intro i hi
    rw [Finset.mem_filter, Finset.mem_range, hlen] at hi
    rcases hx i hi.2 with rfl | hkey
    · exact Finset.mem_insert_self ..
    · exact Finset.mem_insert_of_mem
        (Finset.mem_filter.mpr ⟨Finset.mem_range.mpr hi.1, hkey⟩)
  exact (Finset.card_le_card hsub).trans (Finset.card_insert_le ..)

theorem runOps_no_overflow (ks : KState σ) {ops : List (Op σ)} (hops : ∀ op ∈ ops, op.KeyOk) :
    ∀ {t t' : Tab σ} {es : List TabErr}, t.Inv → t.keyCount + ops.length ≤ t.node.length →
      runOps ks t ops = .ok (t', es) → TabErr.overflow ∉ es := by
  induction ops with
  | nil =>
    intro t t' es _ _ hrun
    cases hrun
    exact not_mem_nil
  | cons op ops ih =>
    intro t t' es h hroom hrun
    rw [length_cons] at hroom
    obtain ⟨t₁, e, hrun₁, hinv₁, hgrow, hfull, -⟩ :=
      Op.run_refines h ks (hops op (mem_cons_self ..))
    have hkey : ∀ op' ∈ ops, op'.KeyOk := fun op' hop' => hops op' (mem_cons_of_mem _ hop')
    obtain ⟨t₂, es₂, hrun₂, -⟩ := runOps_refines ks hkey hinv₁
    simp only [runOps, hrun₁, hrun₂, bind, Except.bind, pure, Except.pure, Except.ok.injEq,
      Prod.mk.injEq] at hrun
    obtain ⟨rfl, rfl⟩ := hrun
    have hes₂ : TabErr.overflow ∉ es₂ := by
      refine ih hkey hinv₁ ?_ hrun₂
      have := hgrow.keyCount_le
      rw [hgrow.1]
      omega
    rw [mem_append, not_or]
    refine ⟨fun he => ?_, hes₂⟩
    have := (hfull (by simpa using he)).keyCount_eq
    omega

/-! ## New tables -/

omit [DecidableEq σ] [StrObj σ] in
theorem newtab_eq_ok {garbage : ℕ → Node σ} {garbageA : ℕ → Val σ} {asize hbits : ℕ}
    (hb : 1 ≤ hbits) (hnew : newtab garbage garbageA asize hbits = .ok t) :
    hbits ≤ kpMaxHbits ∧ asize ≤ kpMaxAsize ∧ t.array.length = asize ∧
      t.node.length = 2 ^ hbits ∧ t.freetop = 2 ^ hbits ∧
      t.hmask = BitVec.ofNat 32 (2 ^ hbits - 1) := by
  have hb0 : hbits ≠ 0 := by omega
  simp only [newtab, bind, Except.bind, if_pos hb0, newhpart] at hnew
  by_cases ha : asize > 0
  · by_cases hmax : asize > kpMaxAsize
    · simp [ha, hmax] at hnew
    · by_cases hbits' : hbits > kpMaxHbits
      · simp [ha, hmax, hbits', pure, Except.pure] at hnew
      · simp only [if_pos ha, if_neg hmax, if_neg hbits', pure, Except.pure,
          Except.ok.injEq] at hnew
        subst hnew
        exact ⟨by omega, by omega, by simp, by simp, rfl, rfl⟩
  · by_cases hbits' : hbits > kpMaxHbits
    · simp [ha, hbits', pure, Except.pure] at hnew
    · simp only [if_neg ha, if_neg hbits', pure, Except.pure, Except.ok.injEq] at hnew
      subst hnew
      exact ⟨by omega, by omega, by simp; omega, by simp, rfl, rfl⟩

theorem kpTabNew_spec {garbage : ℕ → Node σ} {garbageA : ℕ → Val σ} {asize hbits : ℕ}
    (hb : 1 ≤ hbits) (hnew : kpTabNew garbage garbageA asize hbits = .ok t) :
    t.Inv ∧ (∀ i, t.keyAt i = .nil) ∧ ∀ k, t.content k = .nil := by
  rcases htab : newtab garbage garbageA asize hbits with e | t₀
  · simp [kpTabNew, htab, bind, Except.bind] at hnew
  · obtain ⟨hbits_le, hasize, harr, hnode, htop, hmask⟩ := newtab_eq_ok hb htab
    have h2 : 2 ≤ 2 ^ hbits := by
      calc 2 = 2 ^ 1 := rfl
        _ ≤ 2 ^ hbits := Nat.pow_le_pow_right (by omega) hb
    have h26 : 2 ^ hbits ≤ 2 ^ 26 := Nat.pow_le_pow_right (by omega) hbits_le
    have hmask' : t₀.hmask.toNat = 2 ^ hbits - 1 := by
      rw [hmask, BitVec.toNat_ofNat]
      exact Nat.mod_eq_of_lt (by omega)
    have hpos : (clearapart t₀).hmask.toNat > 0 := by
      change t₀.hmask.toNat > 0
      omega
    have ht : t = clearhpart (clearapart t₀) := by
      simp only [kpTabNew, htab, bind, Except.bind, if_pos hpos, pure, Except.pure,
        Except.ok.injEq] at hnew
      exact hnew.symm
    rw [ht]
    refine blank_spec ?_ hpos ?_ ?_ ?_ ?_
    · simp only [clearhpart, clearapart, length_map]
      omega
    · simp only [clearhpart, clearapart, length_map, harr]
      rw [kpMaxAsize] at hasize
      omega
    · simp only [clearhpart, clearapart, length_map]
      omega
    all_goals simp [clearhpart, clearapart]

/-! ## Refinement -/

/-- A table with a hash part behaves as a finite map: after any operations of which none
reports an overflow, every key reads what the map updated by the same operations holds. -/
theorem kpTab_refines_map (garbage : ℕ → Node σ) (garbageA : ℕ → Val σ) (asize hbits : ℕ)
    (hb : 1 ≤ hbits) {t : Tab σ} (hnew : kpTabNew garbage garbageA asize hbits = .ok t)
    (ks : KState σ) (ops : List (Op σ)) (hops : ∀ op ∈ ops, op.KeyOk) :
    ∃ t' es, runOps ks t ops = .ok (t', es) ∧
      (TabErr.overflow ∉ es →
        (∀ (ks' : KState σ) (k : Val σ), k.IsKey →
          kpTabGet ks' t' k = .ok (applyOps (fun _ => .nil) ops k, none)) ∧
        (∀ k : BitVec 32,
          kpTabGetint t' k = .ok (applyOps (fun _ => .nil) ops (.num (k.setWidth 64)))) ∧
        (∀ s : σ, kpTabGetstr t' s = .ok (applyOps (fun _ => .nil) ops (.str s)))) := by
  obtain ⟨hinv, -, hnil⟩ := kpTabNew_spec hb hnew
  obtain ⟨t', es, hrun, hinv', href⟩ := runOps_refines ks hops hinv
  refine ⟨t', es, hrun, fun hno => ?_⟩
  have hcont := href hno (fun _ => .nil) fun k _ => hnil k
  refine ⟨fun ks' k hk => ?_, fun k => ?_, fun s => ?_⟩
  · rw [kpTabGet_spec hinv' ks' hk, hcont k hk]
  · rw [kpTabGetint_spec hinv', hcont _ (.num _)]
  · rw [kpTabGetstr_spec hinv', hcont _ (.str s)]

/-- Two strings and a number whose hashes all collide, one of them deleted and stored again. -/
theorem kpTab_refines_map_colliding :
    letI : StrObj Bool := ⟨fun _ => 0⟩
    ∃ t t' : Tab Bool,
      kpTabNew (fun _ => ⟨.bool true, .num 7, some 0⟩) (fun _ => .num 9) 1 2 = .ok t ∧
      runOps ⟨none, fun _ _ => none⟩ t
        [.set (.str true) (.num 1), .incr (.num 8) 2, .setstr false (.bool true),
          .set (.num 8) .nil, .incrint 8 5, .setint 0 (.str true)] = .ok (t', []) ∧
      kpTabGet ⟨none, fun _ _ => none⟩ t' (.num 8) = .ok (.num 5, none) := by
  let : StrObj Bool := ⟨fun _ => 0⟩
  let ops : List (Op Bool) := [.set (.str true) (.num 1), .incr (.num 8) 2,
    .setstr false (.bool true), .set (.num 8) .nil, .incrint 8 5, .setint 0 (.str true)]
  let t : Tab Bool := ⟨[.nil], List.replicate 4 Node.empty, 4, 3, 0⟩
  have hnew : kpTabNew (fun _ => ⟨.bool true, .num 7, some 0⟩) (fun _ => .num 9) 1 2 = .ok t := by
    decide
  have hops : ∀ op ∈ ops, op.KeyOk := by simp [ops, Op.KeyOk, Val.IsKey]
  obtain ⟨t', es, hrun, hget⟩ := kpTab_refines_map _ _ 1 2 (by decide) hnew
    ⟨none, fun _ _ => none⟩ ops hops
  have hes : (runOps ⟨none, fun _ _ => none⟩ t ops).map Prod.snd = .ok [] := by decide
  rw [hrun] at hes
  obtain rfl : es = [] := by simpa [Except.map] using hes
  refine ⟨t, t', hnew, hrun, ?_⟩
  rw [(hget (by simp)).1 _ (.num 8) (.num 8)]
  decide

end Ktap
