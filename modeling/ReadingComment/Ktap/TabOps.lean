import ReadingComment.Ktap.BcRead
import ReadingComment.Ktap.TabMap

/-!
# Every operation on every table (`runtime/kp_tab.c`)

The rest of the operations: traversal, length, duplication, and creation with sizes. A table that
is created without a hash part has the mask 0, as a table of one node would have, but no node:
an operation that comes to a node goes wrong there.

`TabOp.Fine` says of each operation when it does not come to a slot that is not there, and
`runTab_iff` says it of every run.
-/

namespace Ktap

open List

variable {σ : Type} [DecidableEq σ] [StrObj σ]

/-! ## Creation with sizes and duplication -/

section creation

omit [DecidableEq σ] [StrObj σ]

/-- `TABLE_NARR_ENTRIES`. -/
def tableNarrEntries : BitVec 32 := 255

/-- `TABLE_NREC_ENTRIES`. -/
def tableNrecEntries : BitVec 32 := 2048

/-- `kp_tab_new_ah(ks, a, h)`. -/
def kpTabNewAh (garbage : ℕ → Node σ) (garbageA : ℕ → Val σ) (a h : BitVec 32) :
    Except TabErr (Tab σ) :=
  let (a, h) := if a = 0 ∧ h = 0 then (tableNarrEntries, tableNrecEntries) else (a, h)
  kpTabNew garbage garbageA (if a.toInt > 0 then a.toNat + 1 else 0) (hsize2hbits h.toNat)

/-- The loop of `kp_tab_dup` over the array part (`memcpy` for a long one). -/
def copyArray : List (Val σ) → ℕ → Tab σ → Except Fault (Tab σ)
  | [], _, t => .ok t
  | v :: vs, i, t => do copyArray vs (i + 1) (← t.store v (.array i))

end creation

/-- The loop of `kp_tab_dup` over `n` nodes from node `i` on. -/
def copyNodes (ks : KState σ) (kt : Tab σ) : ℕ → ℕ → Tab σ → Except Fault (Tab σ)
  | 0, _, t => .ok t
  | n + 1, i, t => do
    let knode ← kt.nodeAt i
    if knode.key.isNil then copyNodes ks kt n (i + 1) t
    else
      let (t, _) ← kpTabSet ks t knode.key knode.val
      copyNodes ks kt n (i + 1) t

/-- `kp_tab_dup(ks, kt)`: `none` when the new table cannot be made. -/
def kpTabDup (garbage : ℕ → Node σ) (garbageA : ℕ → Val σ) (ks : KState σ) (kt : Tab σ) :
    Except Fault (Option (Tab σ)) :=
  match kpTabNewAh garbage garbageA 0 0 with
  | .error _ => .ok none
  | .ok t => do
    let t ← copyArray kt.array 0 t
    let t ← copyNodes ks kt (kt.hmask.toNat + 1) 0 t
    return some t

/-! ## Traversal and length -/

/-- A loop over `n` places from `i` on that stops at the first one where `f` finds something. -/
def scan {β : Type} (f : ℕ → Except Fault (Option β)) : ℕ → ℕ → Except Fault (Option β)
  | 0, _ => .ok none
  | n + 1, i => do
    match ← f i with
    | some b => return some b
    | none => scan f n (i + 1)

def arrayEntry (t : Tab σ) (i : ℕ) : Except Fault (Option (Val σ × Val σ)) := do
  let v ← t.load (.array i)
  return if v.isNil then none else some (.num (BitVec.ofNat 64 i), v)

def nodeEntry (t : Tab σ) (i : ℕ) : Except Fault (Option (Val σ × Val σ)) := do
  let n ← t.nodeAt i
  return if n.val.isNil then none else some (n.key, n.val)

/-- `keyindex(ks, t, key) + 1`, and whether `"table next index\n"` is reported. -/
def keyindexNext (t : Tab σ) (key : Val σ) : Except Fault (ℕ × Bool) :=
  let hashed : Except Fault (ℕ × Bool) := do
    match ← walk t (fun x => kpObjEqual x key) (hashkey t key) with
    | some n => return (t.asize + n + 1, false)
    | none => return (0 + 1, true)
  match key with
  | .num nk =>
    let k : BitVec 32 := nk.setWidth 32
    if k.toNat < t.asize ∧ nk = k.setWidth 64 then return (k.toNat + 1, false) else hashed
  | .nil => return (0, false)  -- `~0u + 1`
  | _ => hashed

/-- `kp_tab_next(ks, t, key)`: the next key and value, and whether the message is reported. -/
def kpTabNext (t : Tab σ) (key : Val σ) : Except Fault (Option (Val σ × Val σ) × Bool) := do
  let (i, bad) ← keyindexNext t key
  match ← scan (arrayEntry t) (t.asize - i) i with
  | some entry => return (some entry, bad)
  | none =>
    let i := i - t.asize
    return (← scan (nodeEntry t) (t.hmask.toNat + 1 - i) i, bad)

/-- The loop of `kp_tab_len` over `n` nodes from node `i` on. -/
def countNodes (t : Tab σ) : ℕ → ℕ → Except Fault ℕ
  | 0, _ => .ok 0
  | n + 1, i => do
    let node ← t.nodeAt i
    let len ← countNodes t n (i + 1)
    return if node.key.isNil then len else len + 1

/-- `kp_tab_len(ks, t)`. -/
def kpTabLen (t : Tab σ) : Except Fault ℕ := do
  return t.array.countP (fun v => !v.isNil) + (← countNodes t (t.hmask.toNat + 1) 0)

/-! ## Runs -/

/-- The operations on a table. A duplicate is made in memory that holds anything, and the run
goes on with the original or with the duplicate. -/
inductive TabOp (σ : Type) where
  | get (key : Val σ)
  | getint (key : BitVec 32)
  | getstr (key : σ)
  | change (op : Op σ)
  | next (key : Val σ)
  | len
  | dup (garbage : ℕ → Node σ) (garbageA : ℕ → Val σ) (goOn : Bool)

def TabOp.run (ks : KState σ) (t : Tab σ) : TabOp σ → Except Fault (Tab σ)
  | .get key => do
    let _ ← kpTabGet ks t key
    return t
  | .getint key => do
    let _ ← kpTabGetint t key
    return t
  | .getstr key => do
    let _ ← kpTabGetstr t key
    return t
  | .change op => do
    let (t, _) ← op.run ks t
    return t
  | .next key => do
    let _ ← kpTabNext t key
    return t
  | .len => do
    let _ ← kpTabLen t
    return t
  | .dup garbage garbageA goOn => do
    let copy ← kpTabDup garbage garbageA ks t
    return if goOn then t else copy.getD t

/-- A sequence of operations, each in the interpreter state of its time. -/
def runTab : Tab σ → List (KState σ × TabOp σ) → Except Fault (Tab σ)
  | t, [] => .ok t
  | t, (ks, op) :: ops => do runTab (← op.run ks t) ops

/-! ## When an operation comes to a node -/

section needs

omit [DecidableEq σ] [StrObj σ]

/-- The key under which a store puts its value, if the key is accepted: an event string and a kernel
stack are stored as strings. -/
def storedKey (ks : KState σ) : Val σ → Option (Val σ)
  | .nil => none
  | .kstack depth skip _ => (ks.kpObjKstack2str depth skip).map Val.str
  | .eventstr _ => ks.eventStringify.join.map Val.str
  | key => some key

def SetsNode (ks : KState σ) (t : Tab σ) (key : Val σ) : Prop :=
  ∃ k, storedKey ks key = some k ∧ arrayIndex t k = none

def GetsNode (ks : KState σ) (t : Tab σ) : Val σ → Prop
  | .nil => False
  | .eventstr _ => ∃ s, ks.eventStringify = some (some s)
  | key => arrayIndex t key = none

/-- The event string of an event is looked up, and the union of the key holds no string. -/
def StaleKey (ks : KState σ) (key : Val σ) : Prop :=
  key = .eventstr none ∧ ∃ s, ks.eventStringify = some (some s)

/-- From place `i` on an array slot is not nil. -/
def SlotFrom (t : Tab σ) (i : ℕ) : Prop := ∃ j v, i ≤ j ∧ t.array[j]? = some v ∧ v ≠ .nil

/-- The traversal ends in the array part: the key is nil or has an array slot, and behind it is a
slot that is not nil. -/
def NextInArray (t : Tab σ) (key : Val σ) : Prop :=
  (key = .nil ∧ SlotFrom t 0) ∨ ∃ i, arrayIndex t key = some i ∧ SlotFrom t (i + 1)

def TabOp.Fine (ks : KState σ) (t : Tab σ) : TabOp σ → Prop
  | .get key => (GetsNode ks t key → t.hmask ≠ 0) ∧ ¬ StaleKey ks key
  | .getint key => t.asize ≤ key.toNat → t.hmask ≠ 0
  | .getstr _ => t.hmask ≠ 0
  | .change (.set key _) | .change (.incr key _) => SetsNode ks t key → t.hmask ≠ 0
  | .change (.setint key _) | .change (.incrint key _) => t.asize ≤ key.toNat → t.hmask ≠ 0
  | .change (.setstr _ _) | .change (.incrstr _ _) => t.hmask ≠ 0
  | .change .clear => True
  | .next key => NextInArray t key ∨ t.hmask ≠ 0
  | .len => t.hmask ≠ 0
  | .dup _ _ _ => t.hmask ≠ 0 ∧ t.asize ≤ tableNarrEntries.toNat + 1

end needs

/-- Each operation of a run does not come to a slot that is not there. -/
def FineRun : Tab σ → List (KState σ × TabOp σ) → Prop
  | _, [] => True
  | t, (ks, op) :: ops => op.Fine ks t ∧ ∀ t', op.run ks t = .ok t' → FineRun t' ops

/-! ## Keys that are stored as strings -/

/-- **A store** works with the key that it stores. -/
theorem tabSet_stored {ks : KState σ} {t : Tab σ} {key k : Val σ} (h : storedKey ks key = some k) :
    k.IsKey ∧ tabSet ks t key = tabSet ks t k := by
  cases key with
  | nil => cases h
  | bool b | num n | str s | obj tag gc =>
    cases h
    exact ⟨trivial, rfl⟩
  | eventstr stale =>
    rw [storedKey, Option.map_eq_some_iff] at h
    obtain ⟨s, hs, rfl⟩ := h
    rw [Option.join_eq_some_iff] at hs
    exact ⟨trivial, by simp only [tabSet, hs]⟩
  | kstack depth skip stale =>
    rw [storedKey, Option.map_eq_some_iff] at h
    obtain ⟨s, hs, rfl⟩ := h
    exact ⟨trivial, by simp only [tabSet, hs]⟩

theorem tabSet_not_stored {ks : KState σ} {t : Tab σ} {key : Val σ} (h : storedKey ks key = none) :
    ∃ e, tabSet ks t key = .ok (t, none, e) := by
  cases key with
  | nil => exact ⟨_, rfl⟩
  | bool b | num n | str s | obj tag gc => cases h
  | eventstr stale =>
    rw [storedKey, Option.map_eq_none_iff] at h
    rcases hev : ks.eventStringify with _ | _ | s
    · exact ⟨_, by simp only [tabSet, hev]; rfl⟩
    · exact ⟨_, by simp only [tabSet, hev]; rfl⟩
    · rw [hev] at h
      cases h
  | kstack depth skip stale =>
    rw [storedKey, Option.map_eq_none_iff] at h
    exact ⟨_, by simp only [tabSet, h]; rfl⟩

/-! ## Tables with a hash part -/

section hash

variable {t : Tab σ}

theorem genlookup_notKey (h : t.Inv) {k : Val σ} (hnil : k ≠ .nil) (hk : ¬ k.IsKey) :
    genlookup t k = .ok .nil := by
  rw [genlookup]
  rcases h.walk_spec hnil (fun x => kpObjEqual_iff x k) with ⟨i, hi, -⟩ | ⟨-, hw⟩
  · exact absurd (hi ▸ h.isKey i (by rw [hi]; exact hnil)) hk
  · rw [hw]
    rfl

theorem kpTabGet_kstack (h : t.Inv) (ks : KState σ) (depth skip : BitVec 16) (stale : BitVec 32) :
    kpTabGet ks t (.kstack depth skip stale) = .ok (.nil, none) := by
  have hlook : genlookup t (.kstack depth skip stale) = .ok .nil :=
    genlookup_notKey h (fun h => nomatch h) id
  simp only [kpTabGet, tabGet, hlook]
  rfl

theorem kpTabGet_eventstr (h : t.Inv) {ks : KState σ} {ts : σ}
    (hev : ks.eventStringify = some (some ts))
    (s : σ) : kpTabGet ks t (.eventstr (some s)) = .ok (t.content (.str s), none) := by
  have hget := kpTabGetstr_spec h s
  rw [kpTabGetstr] at hget
  simp only [kpTabGet, tabGet, hev, hget]
  rfl

theorem kpTabGet_stale {ks : KState σ} {key : Val σ} (hkey : StaleKey ks key) :
    kpTabGet ks t key = .error .badAccess := by
  obtain ⟨rfl, s, hev⟩ := hkey
  simp only [kpTabGet, tabGet, hev]

theorem kpTabGet_ok (h : t.Inv) (ks : KState σ) {key : Val σ} (hkey : ¬ StaleKey ks key) :
    ∃ r, kpTabGet ks t key = .ok r := by
  cases key with
  | nil => exact ⟨_, rfl⟩
  | bool b => exact ⟨_, kpTabGet_spec h ks (.bool b)⟩
  | num n => exact ⟨_, kpTabGet_spec h ks (.num n)⟩
  | str s => exact ⟨_, kpTabGet_spec h ks (.str s)⟩
  | obj tag gc => exact ⟨_, kpTabGet_spec h ks (.obj tag gc)⟩
  | kstack depth skip stale => exact ⟨_, kpTabGet_kstack h ks depth skip stale⟩
  | eventstr stale =>
    rcases hev : ks.eventStringify with _ | _ | s
    · exact ⟨_, by simp only [kpTabGet, tabGet, hev]; rfl⟩
    · exact ⟨_, by simp only [kpTabGet, tabGet, hev]; rfl⟩
    · cases stale with
      | none => exact absurd ⟨rfl, s, hev⟩ hkey
      | some s' => exact ⟨_, kpTabGet_eventstr h hev s'⟩

theorem change_ok (h : t.Inv) (ks : KState σ) (op : Op σ) :
    ∃ t' e, op.run ks t = .ok (t', e) ∧ t'.Inv := by
  have hok : ∀ {op : Op σ}, op.KeyOk → ∃ t' e, op.run ks t = .ok (t', e) ∧ t'.Inv := by
    intro op hop
    obtain ⟨t', e, hrun, hinv, -⟩ := Op.run_refines h ks hop
    exact ⟨t', e, hrun, hinv⟩
  cases op with
  | set key v =>
    cases hkey : storedKey ks key with
    | none =>
      obtain ⟨e, he⟩ := @tabSet_not_stored σ _ _ ks t key hkey
      exact ⟨t, e, by rw [Op.run, kpTabSet, he]; rfl, h⟩
    | some k =>
      obtain ⟨hk, heq⟩ := @tabSet_stored σ _ _ ks t key k hkey
      rw [Op.run, kpTabSet, heq]
      exact @hok (.set k v) hk
  | incr key n =>
    cases hkey : storedKey ks key with
    | none =>
      obtain ⟨e, he⟩ := @tabSet_not_stored σ _ _ ks t key hkey
      exact ⟨t, e, by rw [Op.run, kpTabIncr, he]; rfl, h⟩
    | some k =>
      obtain ⟨hk, heq⟩ := @tabSet_stored σ _ _ ks t key k hkey
      rw [Op.run, kpTabIncr, heq]
      exact @hok (.incr k n) hk
  | setint k v => exact hok trivial
  | setstr s v => exact hok trivial
  | incrint k n => exact hok trivial
  | incrstr s n => exact hok trivial
  | clear => exact hok trivial

section

omit [DecidableEq σ] [StrObj σ]

theorem scan_ok {β : Type} {f : ℕ → Except Fault (Option β)} {n i : ℕ}
    (h : ∀ j, i ≤ j → j < i + n → ∃ r, f j = .ok r) : ∃ r, scan f n i = .ok r := by
  induction n generalizing i with
  | zero => exact ⟨none, rfl⟩
  | succ n ih =>
    obtain ⟨r, hr⟩ := h i (Nat.le_refl i) (by omega)
    rw [scan, hr]
    cases r with
    | some b => exact ⟨some b, rfl⟩
    | none => exact ih fun j hj hlt => h j (by omega) (by omega)

theorem arrayEntry_eq {i : ℕ} {v : Val σ} (h : t.array[i]? = some v) :
    arrayEntry t i = .ok (if v.isNil then none else some (.num (BitVec.ofNat 64 i), v)) := by
  rw [arrayEntry, Tab.load, h]
  rfl

theorem scan_array (t : Tab σ) (i : ℕ) : ∃ r, scan (arrayEntry t) (t.asize - i) i = .ok r := by
  refine scan_ok fun j hj hlt => ?_
  have hj' : j < t.array.length := by
    rw [Tab.asize] at hlt
    omega
  exact ⟨_, arrayEntry_eq (getElem?_eq_getElem hj')⟩

end

theorem keyindexNext_ok (h : t.Inv) (key : Val σ) : ∃ r, keyindexNext t key = .ok r := by
  have hhashed : ∀ k : Val σ, k ≠ .nil → ∃ r : ℕ × Bool, (do
      match ← walk t (fun x => kpObjEqual x k) (hashkey t k) with
      | some n => return (t.asize + n + 1, false)
      | none => return (0 + 1, true)) = Except.ok (ε := Fault) r := by
    intro k hk
    rcases h.walk_spec hk (fun x => kpObjEqual_iff x k) with ⟨i, -, hw⟩ | ⟨-, hw⟩
    · rw [hw]
      exact ⟨_, rfl⟩
    · rw [hw]
      exact ⟨_, rfl⟩
  cases key with
  | nil => exact ⟨_, rfl⟩
  | num n =>
    rw [keyindexNext]
    split
    · exact ⟨_, rfl⟩
    · exact hhashed (.num n) fun h => nomatch h
  | bool b => exact hhashed (.bool b) fun h => nomatch h
  | str s => exact hhashed (.str s) fun h => nomatch h
  | obj tag gc => exact hhashed (.obj tag gc) fun h => nomatch h
  | eventstr stale => exact hhashed (.eventstr stale) fun h => nomatch h
  | kstack depth skip stale => exact hhashed (.kstack depth skip stale) fun h => nomatch h

theorem kpTabNext_ok (h : t.Inv) (key : Val σ) : ∃ r, kpTabNext t key = .ok r := by
  obtain ⟨⟨i, bad⟩, hi⟩ := keyindexNext_ok h key
  obtain ⟨r, hr⟩ := scan_array t i
  rw [kpTabNext, hi]
  simp only [bind, Except.bind, hr]
  cases r with
  | some entry => exact ⟨_, rfl⟩
  | none =>
    obtain ⟨r', hr'⟩ : ∃ r', scan (nodeEntry t) (t.hmask.toNat + 1 - (i - t.asize)) (i - t.asize) =
        .ok r' := by
      refine scan_ok fun j hj hlt => ?_
      have hj' : j < t.node.length := by rw [h.size]; omega
      exact ⟨_, by rw [nodeEntry, t.nodeAt_eq hj']; rfl⟩
    simp only [hr']
    exact ⟨_, rfl⟩

omit [StrObj σ] [DecidableEq σ] in
theorem countNodes_ok {n i : ℕ} (h : i + n ≤ t.node.length) : ∃ r, countNodes t n i = .ok r := by
  induction n generalizing i with
  | zero => exact ⟨0, rfl⟩
  | succ n ih =>
    obtain ⟨r, hr⟩ := ih (i := i + 1) (by omega)
    rw [countNodes, t.nodeAt_eq (by omega)]
    simp only [bind, Except.bind, hr]
    exact ⟨_, rfl⟩

section

omit [DecidableEq σ]

theorem kpTabLen_ok (h : t.Inv) : ∃ r, kpTabLen t = .ok r := by
  obtain ⟨r, hr⟩ := @countNodes_ok σ t (t.hmask.toNat + 1) 0 (by rw [h.size]; omega)
  rw [kpTabLen, hr]
  exact ⟨_, rfl⟩

/-! ### Duplication -/

theorem Tab.Inv.setArray (h : t.Inv) (i : ℕ) (v : Val σ) :
    Tab.Inv { t with array := t.array.set i v } :=
  ⟨h.size, h.mask_pos, by simpa using h.asize_lt, h.isKey, h.scatter⟩

theorem copyArray_ok {vs : List (Val σ)} {i : ℕ} (h : t.Inv) (hlen : i + vs.length ≤ t.asize) :
    ∃ t', copyArray vs i t = .ok t' ∧ t'.Inv := by
  induction vs generalizing i t with
  | nil => exact ⟨t, rfl, h⟩
  | cons v vs ih =>
    rw [length_cons] at hlen
    have hlt : i < t.array.length := by
      rw [Tab.asize] at hlen
      omega
    rw [copyArray, Tab.store, if_pos hlt]
    refine ih (h.setArray i v) ?_
    rw [Tab.asize, length_set]
    exact (Nat.succ_add_eq_add_succ i vs.length).trans_le hlen

end

omit [DecidableEq σ] [StrObj σ] in
theorem copyArray_long {vs : List (Val σ)} {i : ℕ} (hi : i ≤ t.asize)
    (hlen : t.asize < i + vs.length) :
    copyArray vs i t = .error .badAccess := by
  induction vs generalizing i t with
  | nil => exact absurd hlen (Nat.not_lt_of_le hi)
  | cons v vs ih =>
    rw [length_cons] at hlen
    rw [copyArray, Tab.store]
    by_cases hlt : i < t.array.length
    · rw [if_pos hlt]
      refine @ih { t with array := t.array.set i v } (i + 1) ?_ ?_
      · rw [Tab.asize, length_set]
        exact hlt
      · rw [Tab.asize, length_set]
        exact hlen.trans_eq (Nat.succ_add_eq_add_succ i vs.length).symm
    · rw [if_neg hlt]
      rfl

theorem copyNodes_ok {ks : KState σ} {kt : Tab σ} {n i : ℕ}
    (hn : i + n ≤ kt.node.length) (h : t.Inv) : ∃ t', copyNodes ks kt n i t = .ok t' ∧ t'.Inv := by
  induction n generalizing i t with
  | zero => exact ⟨t, rfl, h⟩
  | succ n ih =>
    rw [copyNodes, kt.nodeAt_eq (by omega)]
    simp only [bind, Except.bind]
    split
    · exact ih (by omega) h
    · obtain ⟨t', e, hset, hinv⟩ := change_ok h ks (.set (kt.keyAt i) (kt.valAt i))
      rw [Op.run] at hset
      simp only [hset]
      exact ih (by omega) hinv

/-! ### What is created -/

def blank (σ : Type) (asize hbits : ℕ) : Tab σ :=
  ⟨List.replicate asize .nil, if hbits = 0 then [] else List.replicate (2 ^ hbits) Node.empty,
    if hbits = 0 then 0 else 2 ^ hbits, BitVec.ofNat 32 (2 ^ hbits - 1), 0⟩

omit [DecidableEq σ] [StrObj σ] in
theorem newtab_eq (garbage : ℕ → Node σ) (garbageA : ℕ → Val σ) (asize hbits : ℕ) :
    newtab garbage garbageA asize hbits =
      if asize ≤ kpMaxAsize ∧ hbits ≤ kpMaxHbits then
        .ok ⟨(List.range asize).map garbageA,
          if hbits = 0 then [] else (List.range (2 ^ hbits)).map garbage,
          if hbits = 0 then 0 else 2 ^ hbits, BitVec.ofNat 32 (2 ^ hbits - 1), 0⟩
      else .error .overflow := by
  have hhash : ∀ arr : List (Val σ),
      (if hbits ≠ 0 then newhpart garbage ⟨arr, [], 0, 0, 0⟩ hbits else pure ⟨arr, [], 0, 0, 0⟩) =
        if hbits ≤ kpMaxHbits then
          .ok ⟨arr, if hbits = 0 then [] else (List.range (2 ^ hbits)).map garbage,
            if hbits = 0 then 0 else 2 ^ hbits, BitVec.ofNat 32 (2 ^ hbits - 1), 0⟩
        else Except.error TabErr.overflow := by
    intro arr
    by_cases hzero : hbits = 0
    · subst hzero
      rfl
    · rw [if_pos hzero, newhpart]
      by_cases hmax : hbits ≤ kpMaxHbits
      · rw [if_neg (Nat.not_lt.mpr hmax), if_pos hmax, if_neg hzero, if_neg hzero]
      · rw [if_pos (Nat.lt_of_not_le hmax), if_neg hmax]
  rw [newtab]
  by_cases hmax : asize ≤ kpMaxAsize
  · by_cases hpos : asize > 0
    · rw [if_pos hpos, if_neg (Nat.not_lt.mpr hmax)]
      simp only [hmax, true_and]
      exact hhash _
    · obtain rfl : asize = 0 := Nat.eq_zero_of_not_pos hpos
      rw [if_neg hpos]
      simp only [hmax, true_and]
      exact hhash []
  · have hpos : asize > 0 := by omega
    rw [if_pos hpos, if_pos (Nat.lt_of_not_le hmax), if_neg fun h => hmax h.1]
    rfl

theorem map_range_const {β γ : Type} (f : ℕ → β) (c : γ) (n : ℕ) :
    ((List.range n).map f).map (fun _ => c) = List.replicate n c := by
  rw [map_map, eq_replicate_iff]
  simp

omit [DecidableEq σ] [StrObj σ] in
/-- **Creation** does not depend on what the memory held. -/
theorem kpTabNew_eq (garbage : ℕ → Node σ) (garbageA : ℕ → Val σ) (asize hbits : ℕ) :
    kpTabNew garbage garbageA asize hbits =
      if asize ≤ kpMaxAsize ∧ hbits ≤ kpMaxHbits then .ok (blank σ asize hbits)
      else .error .overflow := by
  rw [kpTabNew, newtab_eq]
  by_cases hmax : asize ≤ kpMaxAsize ∧ hbits ≤ kpMaxHbits
  · have hpow : 2 ^ hbits ≤ 2 ^ 26 := Nat.pow_le_pow_right (by omega) hmax.2
    have hmask : (BitVec.ofNat 32 (2 ^ hbits - 1)).toNat = 2 ^ hbits - 1 := by
      rw [BitVec.toNat_ofNat]
      exact Nat.mod_eq_of_lt (by omega)
    rw [if_pos hmax, if_pos hmax]
    simp only [bind, Except.bind, pure, Except.pure, clearapart, hmask, map_range_const]
    by_cases hzero : hbits = 0
    · subst hzero
      rfl
    · have hpos : 2 ^ hbits - 1 > 0 := by
        have := Nat.one_lt_two_pow hzero
        omega
      simp only [if_pos hpos, clearhpart, blank, if_neg hzero, map_range_const]
  · rw [if_neg hmax, if_neg hmax]
    rfl

/-- A table without a hash part: it has the mask of a table of one node, and no node. -/
structure Tab.Bare (t : Tab σ) : Prop where
  node : t.node = []
  mask : t.hmask = 0
  asize_lt : t.array.length < 2 ^ 32

/-- A table that can be met: with a hash part that is intact, or without one. -/
def Tab.Sound (t : Tab σ) : Prop := t.Inv ∨ t.Bare

omit [DecidableEq σ] in
theorem Tab.Inv.mask_ne (h : t.Inv) : t.hmask ≠ 0 := by
  intro hzero
  have hpos := h.mask_pos
  rw [hzero] at hpos
  exact absurd hpos (by decide)

theorem blank_sound {asize hbits : ℕ} (hasize : asize ≤ kpMaxAsize) (hhbits : hbits ≤ kpMaxHbits) :
    (blank σ asize hbits).Sound ∧ (hbits ≠ 0 → (blank σ asize hbits).Inv) := by
  have hlen : (blank σ asize hbits).array.length < 2 ^ 32 := by
    rw [blank, length_replicate]
    exact lt_of_le_of_lt hasize (by decide)
  have hinv : hbits ≠ 0 → (blank σ asize hbits).Inv := by
    intro hne
    have hnew : kpTabNew (fun _ => Node.empty) (fun _ => .nil) asize hbits =
        .ok (blank σ asize hbits) := by rw [kpTabNew_eq, if_pos ⟨hasize, hhbits⟩]
    exact (kpTabNew_spec (Nat.one_le_iff_ne_zero.mpr hne) hnew).1
  refine ⟨?_, hinv⟩
  by_cases hzero : hbits = 0
  · subst hzero
    exact .inr ⟨rfl, rfl, hlen⟩
  · exact .inl (hinv hzero)

theorem kpTabDup_ok (h : t.Inv) (garbage : ℕ → Node σ) (garbageA : ℕ → Val σ) (ks : KState σ)
    (hlen : t.asize ≤ tableNarrEntries.toNat + 1) :
    ∃ t', kpTabDup garbage garbageA ks t = .ok (some t') ∧ t'.Inv := by
  have hnew : kpTabNewAh garbage garbageA 0 0 = .ok (blank σ 256 11) := by
    rw [kpTabNewAh]
    exact (kpTabNew_eq garbage garbageA 256 11).trans (if_pos (by decide))
  have hblank : (blank σ 256 11).Inv := (blank_sound (by decide) (by decide)).2 (by decide)
  obtain ⟨t₁, ht₁, hinv₁⟩ := @copyArray_ok σ _ (blank σ 256 11) t.array 0 hblank (by
    rw [Tab.asize, blank, length_replicate, Nat.zero_add]
    exact hlen)
  obtain ⟨t₂, ht₂, hinv₂⟩ := @copyNodes_ok σ _ _ t₁ ks t (t.hmask.toNat + 1) 0
    (by rw [h.size]; omega) hinv₁
  refine ⟨t₂, ?_, hinv₂⟩
  simp only [kpTabDup, hnew, bind, Except.bind, ht₁, ht₂]
  rfl

theorem kpTabDup_long (garbage : ℕ → Node σ) (garbageA : ℕ → Val σ) (ks : KState σ)
    (hlen : ¬ t.asize ≤ tableNarrEntries.toNat + 1) :
    kpTabDup garbage garbageA ks t = .error .badAccess := by
  have hnew : kpTabNewAh garbage garbageA 0 0 = .ok (blank σ 256 11) := by
    rw [kpTabNewAh]
    exact (kpTabNew_eq garbage garbageA 256 11).trans (if_pos (by decide))
  have hcopy : copyArray t.array 0 (blank σ 256 11) = .error .badAccess := by
    refine copyArray_long (Nat.zero_le _) ?_
    rw [Tab.asize, blank, length_replicate, Nat.zero_add]
    exact Nat.lt_of_not_le hlen
  simp only [kpTabDup, hnew, bind, Except.bind, hcopy]

end hash

/-! ## Tables without a hash part -/

namespace Tab.Bare

variable {t : Tab σ}

omit [DecidableEq σ] [StrObj σ] in
theorem nodeAt (h : t.Bare) (i : ℕ) : t.nodeAt i = .error .badAccess := by
  rw [Tab.nodeAt, h.node]
  rfl

omit [DecidableEq σ] [StrObj σ] in
theorem walk (h : t.Bare) (p : Val σ → Bool) (i : ℕ) : walk t p i = .error .badAccess := by
  rw [Ktap.walk, chainFind, h.nodeAt]
  rfl

theorem genlookup (h : t.Bare) (k : Val σ) : genlookup t k = .error .badAccess := by
  rw [Ktap.genlookup, h.walk]
  rfl

theorem kpTabGetstr (h : t.Bare) (s : σ) : kpTabGetstr t s = .error .badAccess := by
  rw [Ktap.kpTabGetstr, tabGetstr, h.walk]
  rfl

theorem tabSetstr (h : t.Bare) (s : σ) : tabSetstr t s = .error .badAccess := by
  rw [Ktap.tabSetstr, h.walk]
  rfl

theorem tabSetgen (h : t.Bare) (k : Val σ) : tabSetgen t k = .error .badAccess := by
  rw [Ktap.tabSetgen, h.walk]
  rfl

theorem tabSetint (h : t.Bare) {k : BitVec 32} (hk : t.asize ≤ k.toNat) :
    tabSetint t k = .error .badAccess := by
  rw [Ktap.tabSetint, if_neg (Nat.not_lt.mpr hk), tabSetinth, h.walk]
  rfl

omit [StrObj σ] in
theorem kpTabGetint (h : t.Bare) {k : BitVec 32} (hk : t.asize ≤ k.toNat) :
    kpTabGetint t k = .error .badAccess := by
  rw [Ktap.kpTabGetint, tabGetint, if_neg (Nat.not_lt.mpr hk), tabGetinth, h.walk]
  rfl

end Tab.Bare

section bare

variable {t : Tab σ}

variable {i : ℕ} {k : Val σ}

omit [DecidableEq σ] [StrObj σ] in
theorem load_array (hi : i < t.asize) : ∃ v, t.load (.array i) = .ok v := by
  rw [Tab.load, getElem?_eq_getElem hi]
  exact ⟨_, rfl⟩

omit [StrObj σ] in
theorem kpTabGetint_array {k : BitVec 32} (hk : k.toNat < t.asize) :
    ∃ v, kpTabGetint t k = .ok v := by
  rw [kpTabGetint, tabGetint, if_pos hk]
  exact load_array hk

omit [DecidableEq σ] [StrObj σ] in
theorem arrayIndex_eq_some (h : arrayIndex t k = some i) :
    ∃ n : Number, k = .num n ∧ n.toNat = i ∧ i < t.asize := by
  cases k with
  | num n =>
    rw [arrayIndex] at h
    split at h
    · rename_i hlt
      cases h
      exact ⟨n, rfl, rfl, hlt⟩
    · cases h
  | nil | bool b | str s | obj tag gc | eventstr stale | kstack depth skip stale => cases h

omit [DecidableEq σ] [StrObj σ] in
theorem cast_eq {n : Number} (hlen : t.array.length < 2 ^ 32) (hn : n.toNat < t.asize) :
    n = (n.setWidth 32).setWidth 64 ∧ (n.setWidth 32).toNat = n.toNat := by
  have hlt : n.toNat < 2 ^ 32 := lt_trans hn hlen
  have hlow : (n.setWidth 32).toNat = n.toNat := by
    rw [BitVec.toNat_setWidth]
    exact Nat.mod_eq_of_lt hlt
  refine ⟨BitVec.eq_of_toNat_eq ?_, hlow⟩
  rw [BitVec.toNat_setWidth, hlow]
  exact (Nat.mod_eq_of_lt n.isLt).symm

theorem toNat_of_cast {n : Number} (h : n = (n.setWidth 32).setWidth 64) :
    (n.setWidth 32).toNat = n.toNat := by
  have hlow : n.toNat = (n.setWidth 32).toNat % 2 ^ 64 := by
    conv_lhs => rw [h]
    exact BitVec.toNat_setWidth ..
  rw [hlow]
  exact (Nat.mod_eq_of_lt (lt_trans (n.setWidth 32).isLt (by decide))).symm

theorem tabSet_array (ks : KState σ) (hlen : t.array.length < 2 ^ 32)
    (h : arrayIndex t k = some i) :
    tabSet ks t k = .ok (t, some (.array i), none) := by
  obtain ⟨n, rfl, rfl, hlt⟩ := arrayIndex_eq_some h
  obtain ⟨hcast, hlow⟩ := cast_eq hlen hlt
  have hslot : tabSetint t (n.setWidth 32) = .ok (t, some (.array n.toNat), none) := by
    rw [tabSetint, if_pos (hlow ▸ hlt), hlow]
    rfl
  rw [tabSet, if_pos hcast, hslot]

theorem kpTabGet_array (ks : KState σ) (hlen : t.array.length < 2 ^ 32)
    (h : arrayIndex t k = some i) :
    kpTabGet ks t k = (do return (← t.load (.array i), none)) := by
  obtain ⟨n, rfl, rfl, hlt⟩ := arrayIndex_eq_some h
  obtain ⟨hcast, hlow⟩ := cast_eq hlen hlt
  have hget : tabGetint t (n.setWidth 32) = t.load (.array n.toNat) := by
    rw [tabGetint, if_pos (hlow ▸ hlt), hlow]
  rw [kpTabGet, tabGet, if_pos hcast, hget]

section

omit [DecidableEq σ] [StrObj σ]

theorem Tab.Bare.setArray (h : t.Bare) (i : ℕ) (v : Val σ) :
    Tab.Bare { t with array := t.array.set i v } :=
  ⟨h.node, h.mask, by simpa using h.asize_lt⟩

theorem putVal_array (h : t.Bare) {i : ℕ} (hi : i < t.asize) (v : Val σ) :
    ∃ t' e, putVal (t, some (.array i), none) v = .ok (t', e) ∧ t'.Bare := by
  refine ⟨{ t with array := t.array.set i v }, none, ?_, h.setArray i v⟩
  rw [putVal, Tab.store, if_pos hi]
  rfl

theorem incrVal_array (h : t.Bare) {i : ℕ} (hi : i < t.asize) (n : Number) :
    ∃ t' e, incrVal (t, some (.array i), none) n = .ok (t', e) ∧ t'.Bare := by
  obtain ⟨v, hv⟩ := load_array hi
  have hstore : ∀ w : Val σ, t.store w (.array i) = .ok { t with array := t.array.set i w } :=
    fun w => if_pos hi
  simp only [incrVal, hv, hstore, bind, Except.bind]
  cases v with
  | nil | num m => exact ⟨_, _, rfl, h.setArray i _⟩
  | bool b | str s | obj tag gc | eventstr stale | kstack depth skip stale => exact ⟨t, _, rfl, h⟩

end

theorem Tab.Bare.tabSet_error (h : t.Bare) (ks : KState σ) (hk : k.IsKey)
    (hidx : arrayIndex t k = none) : tabSet ks t k = .error .badAccess := by
  cases k with
  | nil => exact absurd hk id
  | bool b => exact h.tabSetgen _
  | str s => exact h.tabSetstr s
  | obj tag gc => exact h.tabSetgen _
  | num n =>
    have hlt : ¬ n.toNat < t.asize := by
      intro hlt
      rw [arrayIndex, if_pos hlt] at hidx
      cases hidx
    rw [tabSet]
    split
    · rename_i hcast
      refine h.tabSetint ?_
      have hlow := toNat_of_cast hcast
      rw [hlow]
      exact Nat.not_lt.mp hlt
    · exact h.tabSetgen _
  | eventstr _ => exact absurd hk id
  | kstack _ _ _ => exact absurd hk id

omit [DecidableEq σ] [StrObj σ] in
theorem scan_slotFrom {n i : ℕ} (hn : t.asize - i = n) :
    (SlotFrom t i → ∃ entry, scan (arrayEntry t) n i = .ok (some entry)) ∧
      (¬ SlotFrom t i → scan (arrayEntry t) n i = .ok none) := by
  induction n generalizing i with
  | zero =>
    refine ⟨?_, fun _ => rfl⟩
    rintro ⟨j, v, hij, hv, -⟩
    have hj : j < t.array.length := (List.getElem?_eq_some_iff.mp hv).1
    rw [Tab.asize] at hn
    omega
  | succ n ih =>
    have hi : i < t.array.length := by
      rw [Tab.asize] at hn
      omega
    obtain ⟨hsome, hnone⟩ := ih (i := i + 1) (by omega)
    rw [scan, arrayEntry_eq (getElem?_eq_getElem hi)]
    by_cases hnil : t.array[i].isNil = true
    · have hnext : SlotFrom t i ↔ SlotFrom t (i + 1) := by
        constructor
        · rintro ⟨j, v, hij, hv, hne⟩
          refine ⟨j, v, lt_of_le_of_ne hij ?_, hv, hne⟩
          rintro rfl
          rw [getElem?_eq_getElem hi] at hv
          cases hv
          exact hne ((Val.isNil_iff _).mp hnil)
        · rintro ⟨j, v, hij, hv, hne⟩
          exact ⟨j, v, Nat.le_of_succ_le hij, hv, hne⟩
      rw [hnext, if_pos hnil]
      exact ⟨hsome, hnone⟩
    · have hslot : SlotFrom t i :=
        ⟨i, t.array[i], Nat.le_refl i, getElem?_eq_getElem hi, fun h =>
          hnil ((Val.isNil_iff _).mpr h)⟩
      rw [if_neg hnil]
      exact ⟨fun _ => ⟨_, rfl⟩, fun hnot => absurd hslot hnot⟩

theorem keyindexNext_array (hlen : t.array.length < 2 ^ 32) (h : arrayIndex t k = some i) :
    keyindexNext t k = .ok (i + 1, false) := by
  obtain ⟨n, rfl, rfl, hlt⟩ := arrayIndex_eq_some h
  obtain ⟨hcast, hlow⟩ := cast_eq hlen hlt
  rw [keyindexNext, if_pos ⟨hlow ▸ hlt, hcast⟩, hlow]
  rfl

theorem Tab.Bare.keyindexNext_error (h : t.Bare) (hnil : k ≠ .nil) (hidx : arrayIndex t k = none) :
    keyindexNext t k = .error .badAccess := by
  cases k with
  | nil => exact absurd rfl hnil
  | num n =>
    rw [keyindexNext, h.walk, if_neg]
    · rfl
    · rintro ⟨hlt, hcast⟩
      have hlow := toNat_of_cast hcast
      rw [arrayIndex, if_pos (hlow ▸ hlt)] at hidx
      cases hidx
  | bool b | str s | obj tag gc | eventstr stale | kstack depth skip stale =>
    simp only [keyindexNext, h.walk]
    rfl

theorem Tab.Bare.kpTabNext_from (h : t.Bare) {bad : Bool} (hi : i ≤ t.asize)
    (hidx : keyindexNext t k = .ok (i, bad)) :
    (SlotFrom t i → ∃ r, kpTabNext t k = .ok r) ∧
      (¬ SlotFrom t i → kpTabNext t k = .error .badAccess) := by
  obtain ⟨hsome, hnone⟩ := @scan_slotFrom σ t (t.asize - i) i rfl
  constructor
  · intro hslot
    obtain ⟨entry, hentry⟩ := hsome hslot
    simp only [kpTabNext, hidx, hentry, bind, Except.bind]
    exact ⟨_, rfl⟩
  · intro hslot
    have hbegin : i - t.asize = 0 := Nat.sub_eq_zero_of_le hi
    have hnode : scan (nodeEntry t) (t.hmask.toNat + 1 - 0) 0 = .error .badAccess := by
      have hmask : t.hmask.toNat = 0 := congrArg BitVec.toNat h.mask
      rw [hmask]
      change scan (nodeEntry t) (0 + 1) 0 = _
      rw [scan, nodeEntry, h.nodeAt]
      rfl
    simp only [kpTabNext, hidx, hnone hslot, hbegin, hnode, bind, Except.bind]

theorem Tab.Bare.kpTabNext_iff (h : t.Bare) (k : Val σ) :
    (NextInArray t k → ∃ r, kpTabNext t k = .ok r) ∧
      (¬ NextInArray t k → kpTabNext t k = .error .badAccess) := by
  by_cases hnil : k = .nil
  · subst hnil
    obtain ⟨hslot, hnot⟩ := h.kpTabNext_from (Nat.zero_le _)
      (show keyindexNext t .nil = .ok (0, false) from rfl)
    refine ⟨?_, fun h => hnot fun hs => h (.inl ⟨rfl, hs⟩)⟩
    rintro (⟨-, hs⟩ | ⟨i, hi, -⟩)
    · exact hslot hs
    · cases hi
  · cases hidx : arrayIndex t k with
    | none =>
      refine ⟨?_, fun _ => ?_⟩
      · rintro (⟨hk, -⟩ | ⟨i, hi, -⟩)
        · exact absurd hk hnil
        · rw [hidx] at hi
          cases hi
      · rw [kpTabNext, h.keyindexNext_error hnil hidx]
        rfl
    | some i =>
      have hi : i + 1 ≤ t.asize := arrayIndex_lt hidx
      obtain ⟨hslot, hnot⟩ := h.kpTabNext_from hi (keyindexNext_array h.asize_lt hidx)
      refine ⟨?_, fun h => hnot fun hs => h (.inr ⟨i, hidx, hs⟩)⟩
      rintro (⟨hk, -⟩ | ⟨j, hj, hs⟩)
      · exact absurd hk hnil
      · rw [hidx] at hj
        cases hj
        exact hslot hs

theorem Tab.Bare.kpTabDup_error (h : t.Bare) (garbage : ℕ → Node σ) (garbageA : ℕ → Val σ)
    (ks : KState σ) : ∃ e, kpTabDup garbage garbageA ks t = .error e := by
  have hnew : kpTabNewAh garbage garbageA 0 0 = .ok (blank σ 256 11) := by
    rw [kpTabNewAh]
    exact (kpTabNew_eq garbage garbageA 256 11).trans (if_pos (by decide))
  have hnodes : ∀ t', copyNodes ks t (t.hmask.toNat + 1) 0 t' = .error .badAccess := by
    intro t'
    rw [copyNodes, h.nodeAt]
    rfl
  simp only [kpTabDup, hnew, bind, Except.bind]
  cases copyArray t.array 0 (blank σ 256 11) with
  | error e => exact ⟨e, rfl⟩
  | ok t' =>
    simp only [hnodes]
    exact ⟨_, rfl⟩

omit [DecidableEq σ] [StrObj σ] in
theorem Tab.Bare.kpTabLen_error (h : t.Bare) : kpTabLen t = .error .badAccess := by
  rw [kpTabLen, countNodes, h.nodeAt]
  rfl

end bare

/-! ## One operation -/

section step

variable {t : Tab σ} {ks : KState σ} {op : TabOp σ}

/-- **One operation on a table with a hash part.** -/
theorem Tab.Inv.step (h : t.Inv) :
    (op.Fine ks t → ∃ t', op.run ks t = .ok t' ∧ t'.Inv) ∧
      (¬ op.Fine ks t → ∃ e, op.run ks t = .error e) := by
  have hmask := h.mask_ne
  cases op with
  | get key =>
    refine ⟨fun hop => ?_, fun hop => ?_⟩
    · obtain ⟨r, hr⟩ := kpTabGet_ok h ks hop.2
      exact ⟨t, by rw [TabOp.run, hr]; rfl, h⟩
    · have hstale : StaleKey ks key := not_not.mp fun hnot => hop ⟨fun _ => hmask, hnot⟩
      exact ⟨.badAccess, by rw [TabOp.run, kpTabGet_stale hstale]; rfl⟩
  | getint key =>
    refine ⟨fun _ => ⟨t, ?_, h⟩, fun hop => absurd (fun _ => hmask) hop⟩
    rw [TabOp.run, kpTabGetint_spec h]
    rfl
  | getstr key =>
    refine ⟨fun _ => ⟨t, ?_, h⟩, fun hop => absurd hmask hop⟩
    rw [TabOp.run, kpTabGetstr_spec h]
    rfl
  | change op =>
    refine ⟨fun _ => ?_, fun hop => absurd ?_ hop⟩
    · obtain ⟨t', e, hrun, hinv⟩ := change_ok h ks op
      exact ⟨t', by rw [TabOp.run, hrun]; rfl, hinv⟩
    · cases op with
      | set _ _ | setint _ _ | incr _ _ | incrint _ _ => exact fun _ => hmask
      | setstr _ _ | incrstr _ _ => exact hmask
      | clear => trivial
  | next key =>
    refine ⟨fun _ => ?_, fun hop => absurd (.inr hmask) hop⟩
    obtain ⟨r, hr⟩ := kpTabNext_ok h key
    exact ⟨t, by rw [TabOp.run, hr]; rfl, h⟩
  | len =>
    refine ⟨fun _ => ?_, fun hop => absurd hmask hop⟩
    obtain ⟨r, hr⟩ := kpTabLen_ok h
    exact ⟨t, by rw [TabOp.run, hr]; rfl, h⟩
  | dup garbage garbageA goOn =>
    refine ⟨fun hop => ?_, fun hop => ?_⟩
    · obtain ⟨t', hdup, hinv⟩ := kpTabDup_ok h garbage garbageA ks hop.2
      refine ⟨if goOn then t else t', by rw [TabOp.run, hdup]; rfl, ?_⟩
      cases goOn with
      | true => exact h
      | false => exact hinv
    · have hlong : ¬ t.asize ≤ tableNarrEntries.toNat + 1 := fun hle => hop ⟨hmask, hle⟩
      exact ⟨.badAccess, by rw [TabOp.run, kpTabDup_long garbage garbageA ks hlong]; rfl⟩

theorem Tab.Bare.step_set (h : t.Bare) {key : Val σ} {β : Type}
    {put : SetResult σ → Except Fault (Tab σ × β)}
    (hnone : ∀ e, ∃ b, put (t, none, e) = .ok (t, b))
    (harray : ∀ {i : ℕ}, i < t.asize → ∃ t' b, put (t, some (.array i), none) = .ok (t', b) ∧
      t'.Bare) :
    ((SetsNode ks t key → t.hmask ≠ 0) →
        ∃ t' b, (do put (← tabSet ks t key)) = .ok (t', b) ∧ t'.Bare) ∧
      (¬ (SetsNode ks t key → t.hmask ≠ 0) → ∃ e, (do put (← tabSet ks t key)) = .error e) := by
  cases hkey : storedKey ks key with
  | none =>
    refine ⟨fun _ => ?_, fun hnot => absurd ?_ hnot⟩
    · obtain ⟨e, he⟩ := @tabSet_not_stored σ _ _ ks t key hkey
      obtain ⟨b, hb⟩ := hnone e
      exact ⟨t, b, by rw [he]; exact hb, h⟩
    · rintro ⟨k, hk, -⟩
      cases hkey.symm.trans hk
  | some k =>
    obtain ⟨hk, heq⟩ := @tabSet_stored σ _ _ ks t key k hkey
    rw [heq]
    cases hidx : arrayIndex t k with
    | none =>
      have hnode : SetsNode ks t key := ⟨k, hkey, hidx⟩
      refine ⟨fun hfine => absurd h.mask (hfine hnode), fun _ => ⟨.badAccess, ?_⟩⟩
      rw [h.tabSet_error ks hk hidx]
      rfl
    | some i =>
      refine ⟨fun _ => ?_, fun hnot => absurd ?_ hnot⟩
      · rw [tabSet_array ks h.asize_lt hidx]
        exact harray (arrayIndex_lt hidx)
      · rintro ⟨k', hk', hidx'⟩
        obtain rfl := Option.some.inj (hkey.symm.trans hk')
        cases hidx.symm.trans hidx'

omit [DecidableEq σ] [StrObj σ] in
theorem Tab.Bare.mask_eq (h : t.Bare) {p : Prop} : (p → t.hmask ≠ 0) ↔ ¬ p :=
  ⟨fun himp hp => himp hp h.mask, fun hnot hp => absurd hp hnot⟩

theorem Tab.Bare.step_get (h : t.Bare) (key : Val σ) :
    ((GetsNode ks t key → t.hmask ≠ 0) ∧ ¬ StaleKey ks key → ∃ r, kpTabGet ks t key = .ok r) ∧
      (¬ ((GetsNode ks t key → t.hmask ≠ 0) ∧ ¬ StaleKey ks key) →
        kpTabGet ks t key = .error .badAccess) := by
  have hstale : StaleKey ks key → GetsNode ks t key := by
    rintro ⟨rfl, hmade⟩
    exact hmade
  have hfine : (GetsNode ks t key → t.hmask ≠ 0) ∧ ¬ StaleKey ks key ↔ ¬ GetsNode ks t key := by
    rw [h.mask_eq]
    exact ⟨fun hboth => hboth.1, fun hnot => ⟨hnot, fun hs => hnot (hstale hs)⟩⟩
  rw [hfine, not_not]
  -- a key that is looked up under its own identity
  have hplain : ∀ {k : Val σ}, (arrayIndex t k = none → kpTabGet ks t k = .error .badAccess) →
      (¬ arrayIndex t k = none → ∃ r, kpTabGet ks t k = .ok r) ∧
        (arrayIndex t k = none → kpTabGet ks t k = .error .badAccess) := by
    intro k hnode
    refine ⟨fun hidx => ?_, hnode⟩
    obtain ⟨i, hi⟩ := Option.ne_none_iff_exists'.mp hidx
    obtain ⟨v, hv⟩ := load_array (arrayIndex_lt hi)
    exact ⟨_, by rw [kpTabGet_array ks h.asize_lt hi, hv]; rfl⟩
  cases key with
  | nil => exact ⟨fun _ => ⟨_, rfl⟩, fun hnode => absurd hnode id⟩
  | num n =>
    refine hplain fun hidx => ?_
    rw [kpTabGet, tabGet]
    split
    · rename_i hcast
      have hlow := toNat_of_cast hcast
      have hge : t.asize ≤ (n.setWidth 32).toNat := by
        refine Nat.not_lt.mp fun hlt => ?_
        rw [arrayIndex, if_pos (hlow ▸ hlt)] at hidx
        cases hidx
      have hget := h.kpTabGetint hge
      rw [Ktap.kpTabGetint] at hget
      rw [hget]
      rfl
    · rw [h.genlookup]
      rfl
  | str s =>
    refine hplain fun _ => ?_
    have hget := h.kpTabGetstr s
    rw [Ktap.kpTabGetstr] at hget
    rw [kpTabGet, tabGet, hget]
    rfl
  | bool b | obj tag gc | kstack depth skip stale =>
    refine hplain fun _ => ?_
    simp only [kpTabGet, tabGet, h.genlookup]
    rfl
  | eventstr stale =>
    constructor
    · intro hnot
      rcases hev : ks.eventStringify with _ | _ | s
      · exact ⟨_, by simp only [kpTabGet, tabGet, hev]; rfl⟩
      · exact ⟨_, by simp only [kpTabGet, tabGet, hev]; rfl⟩
      · exact absurd ⟨s, hev⟩ hnot
    · rintro ⟨s, hev⟩
      cases stale with
      | none => exact kpTabGet_stale ⟨rfl, s, hev⟩
      | some s' =>
        have hget := h.kpTabGetstr s'
        rw [Ktap.kpTabGetstr] at hget
        simp only [kpTabGet, tabGet, hev, hget]
        rfl

theorem Tab.Bare.step_setint (h : t.Bare) {key : BitVec 32} {β : Type}
    {put : SetResult σ → Except Fault (Tab σ × β)}
    (harray : ∀ {i : ℕ}, i < t.asize → ∃ t' b, put (t, some (.array i), none) = .ok (t', b) ∧
      t'.Bare) :
    ((t.asize ≤ key.toNat → t.hmask ≠ 0) →
        ∃ t' b, (do put (← Ktap.tabSetint t key)) = .ok (t', b) ∧ t'.Bare) ∧
      (¬ (t.asize ≤ key.toNat → t.hmask ≠ 0) →
        ∃ e, (do put (← Ktap.tabSetint t key)) = .error e) := by
  rw [h.mask_eq, not_not]
  constructor
  · intro hlt
    rw [Ktap.tabSetint, if_pos (Nat.not_le.mp hlt)]
    exact harray (Nat.not_le.mp hlt)
  · intro hge
    rw [h.tabSetint hge]
    exact ⟨_, rfl⟩

theorem Tab.Bare.step_change (h : t.Bare) (op : Op σ) :
    ((TabOp.change op).Fine ks t → ∃ t' e, op.run ks t = .ok (t', e) ∧ t'.Bare) ∧
      (¬ (TabOp.change op).Fine ks t → ∃ e, op.run ks t = .error e) := by
  cases op with
  | set key v =>
    exact h.step_set (fun e => ⟨e, rfl⟩) fun hi => putVal_array h hi v
  | incr key n =>
    exact h.step_set (fun e => ⟨e, rfl⟩) fun hi => incrVal_array h hi n
  | setint key v => exact h.step_setint fun hi => putVal_array h hi v
  | incrint key n => exact h.step_setint fun hi => incrVal_array h hi n
  | setstr s v =>
    refine ⟨fun hop => absurd h.mask hop, fun _ => ⟨.badAccess, ?_⟩⟩
    rw [Op.run, kpTabSetstr, h.tabSetstr]
    rfl
  | incrstr s n =>
    refine ⟨fun hop => absurd h.mask hop, fun _ => ⟨.badAccess, ?_⟩⟩
    rw [Op.run, kpTabIncrstr, h.tabSetstr]
    rfl
  | clear =>
    refine ⟨fun _ => ⟨clearapart t, none, ?_, ⟨h.node, h.mask, ?_⟩⟩, fun hop => absurd trivial hop⟩
    · have hmask : ¬ (clearapart t).hmask.toNat > 0 := by
        rw [clearapart, h.mask]
        decide
      rw [Op.run, kpTabClear, if_neg hmask]
    · rw [clearapart, length_map]
      exact h.asize_lt

/-- **One operation on a table without a hash part.** -/
theorem Tab.Bare.step (h : t.Bare) :
    (op.Fine ks t → ∃ t', op.run ks t = .ok t' ∧ t'.Bare) ∧
      (¬ op.Fine ks t → ∃ e, op.run ks t = .error e) := by
  cases op with
  | get key =>
    obtain ⟨hfine, hnot⟩ := @Tab.Bare.step_get σ _ _ t ks h key
    refine ⟨fun hop => ?_, fun hop => ⟨.badAccess, by rw [TabOp.run, hnot hop]; rfl⟩⟩
    obtain ⟨r, hr⟩ := hfine hop
    exact ⟨t, by rw [TabOp.run, hr]; rfl, h⟩
  | getint key =>
    rw [TabOp.Fine, h.mask_eq, not_not]
    refine ⟨fun hlt => ?_, fun hge => ⟨.badAccess, by rw [TabOp.run, h.kpTabGetint hge]; rfl⟩⟩
    obtain ⟨v, hv⟩ := kpTabGetint_array (Nat.not_le.mp hlt)
    exact ⟨t, by rw [TabOp.run, hv]; rfl, h⟩
  | getstr key =>
    refine ⟨fun hop => absurd h.mask hop, fun _ => ⟨.badAccess, ?_⟩⟩
    rw [TabOp.run, h.kpTabGetstr]
    rfl
  | change op =>
    obtain ⟨hfine, hnot⟩ := @Tab.Bare.step_change σ _ _ t ks h op
    refine ⟨fun hop => ?_, fun hop => ?_⟩
    · obtain ⟨t', e, hrun, hbare⟩ := hfine hop
      exact ⟨t', by rw [TabOp.run, hrun]; rfl, hbare⟩
    · obtain ⟨e, hrun⟩ := hnot hop
      exact ⟨e, by rw [TabOp.run, hrun]; rfl⟩
  | next key =>
    obtain ⟨hfine, hnot⟩ := h.kpTabNext_iff key
    refine ⟨fun hop => ?_, fun hop => ?_⟩
    · obtain ⟨r, hr⟩ := hfine (hop.resolve_right fun hne => hne h.mask)
      exact ⟨t, by rw [TabOp.run, hr]; rfl, h⟩
    · exact ⟨.badAccess, by rw [TabOp.run, hnot fun hin => hop (.inl hin)]; rfl⟩
  | len =>
    refine ⟨fun hop => absurd h.mask hop, fun _ => ⟨.badAccess, ?_⟩⟩
    rw [TabOp.run, h.kpTabLen_error]
    rfl
  | dup garbage garbageA goOn =>
    refine ⟨fun hop => absurd h.mask hop.1, fun _ => ?_⟩
    obtain ⟨e, he⟩ := h.kpTabDup_error garbage garbageA ks
    exact ⟨e, by rw [TabOp.run, he]; rfl⟩

/-- **Step lemma.** -/
theorem Tab.Sound.step (h : t.Sound) :
    (op.Fine ks t → ∃ t', op.run ks t = .ok t' ∧ t'.Sound) ∧
      (¬ op.Fine ks t → ∃ e, op.run ks t = .error e) := by
  rcases h with h | h
  · obtain ⟨hfine, hnot⟩ := @Tab.Inv.step σ _ _ t ks op h
    refine ⟨fun hop => ?_, hnot⟩
    obtain ⟨t', hrun, hinv⟩ := hfine hop
    exact ⟨t', hrun, .inl hinv⟩
  · obtain ⟨hfine, hnot⟩ := @Tab.Bare.step σ _ _ t ks op h
    refine ⟨fun hop => ?_, hnot⟩
    obtain ⟨t', hrun, hbare⟩ := hfine hop
    exact ⟨t', hrun, .inr hbare⟩

end step

/-! ## Runs -/

/-- **Run lemma.** -/
theorem Tab.Sound.run {t : Tab σ} (h : t.Sound) (ops : List (KState σ × TabOp σ)) :
    (FineRun t ops → ∃ t', runTab t ops = .ok t' ∧ t'.Sound) ∧
      (¬ FineRun t ops → ∃ e, runTab t ops = .error e) := by
  induction ops generalizing t with
  | nil => exact ⟨fun _ => ⟨t, rfl, h⟩, fun hnot => absurd trivial hnot⟩
  | cons step ops ih =>
    obtain ⟨ks, op⟩ := step
    obtain ⟨hfine, hnot⟩ := @Tab.Sound.step σ _ _ t ks op h
    by_cases hop : op.Fine ks t
    · obtain ⟨t₁, hrun₁, hsound₁⟩ := hfine hop
      obtain ⟨hrest, hrest_not⟩ := ih hsound₁
      rw [runTab, hrun₁]
      constructor
      · rintro ⟨-, hnext⟩
        exact hrest (hnext t₁ hrun₁)
      · intro hbad
        refine hrest_not fun hgood => hbad ⟨hop, fun t' ht' => ?_⟩
        obtain rfl := Except.ok.inj (hrun₁.symm.trans ht')
        exact hgood
    · obtain ⟨e, he⟩ := hnot hop
      refine ⟨fun hall => absurd hall.1 hop, fun _ => ⟨e, ?_⟩⟩
      rw [runTab, he]
      rfl

/-- How a table is created. -/
inductive Size where
  /-- `kp_tab_new` -/
  | new (asize hbits : ℕ)
  /-- `kp_tab_new_ah` -/
  | newAh (a h : BitVec 32)

omit [DecidableEq σ] [StrObj σ] in
def Size.create (garbage : ℕ → Node σ) (garbageA : ℕ → Val σ) : Size → Except TabErr (Tab σ)
  | .new asize hbits => kpTabNew garbage garbageA asize hbits
  | .newAh a h => kpTabNewAh garbage garbageA a h

omit [DecidableEq σ] [StrObj σ] in
theorem Size.create_eq (size : Size) : ∃ asize hbits,
    ∀ (garbage : ℕ → Node σ) (garbageA : ℕ → Val σ), size.create garbage garbageA =
      if asize ≤ kpMaxAsize ∧ hbits ≤ kpMaxHbits then .ok (blank σ asize hbits)
      else .error .overflow := by
  cases size with
  | new asize hbits =>
    exact ⟨asize, hbits, fun garbage garbageA => kpTabNew_eq garbage garbageA asize hbits⟩
  | newAh a h =>
    by_cases hzero : a = 0 ∧ h = 0
    · refine ⟨256, 11, fun garbage garbageA => ?_⟩
      rw [Size.create, kpTabNewAh, if_pos hzero]
      exact kpTabNew_eq garbage garbageA 256 11
    · refine ⟨if a.toInt > 0 then a.toNat + 1 else 0, hsize2hbits h.toNat, fun garbage garbageA =>
        ?_⟩
      rw [Size.create, kpTabNewAh, if_neg hzero]
      exact kpTabNew_eq garbage garbageA _ _

theorem Size.create_sound {size : Size} {garbage : ℕ → Node σ} {garbageA : ℕ → Val σ} {t : Tab σ}
    (hnew : size.create garbage garbageA = .ok t) :
    t.Sound ∧ ∀ (garbage : ℕ → Node σ) (garbageA : ℕ → Val σ),
      size.create garbage garbageA = .ok t := by
  obtain ⟨asize, hbits, heq⟩ := @Size.create_eq σ size
  rw [heq] at hnew
  split at hnew
  · rename_i hmax
    cases hnew
    exact ⟨(blank_sound hmax.1 hmax.2).1, fun garbage garbageA => (heq garbage garbageA).trans
      (if_pos hmax)⟩
  · cases hnew

/-- **Every run on every table**: a table is created with nothing but initialised slots, and the
operations come to slots that are there if and only if each of them is fine. -/
theorem tab_slots {size : Size} {garbage : ℕ → Node σ} {garbageA : ℕ → Val σ} {t : Tab σ}
    (hnew : size.create garbage garbageA = .ok t) :
    (∀ (garbage : ℕ → Node σ) (garbageA : ℕ → Val σ), size.create garbage garbageA = .ok t) ∧
      ∀ ops : List (KState σ × TabOp σ), (∃ t', runTab t ops = .ok t') ↔ FineRun t ops := by
  obtain ⟨hsound, hcreate⟩ := Size.create_sound hnew
  refine ⟨hcreate, fun ops => ?_⟩
  obtain ⟨hfine, hnot⟩ := hsound.run ops
  constructor
  · rintro ⟨t', hrun⟩
    by_contra hbad
    obtain ⟨e, he⟩ := hnot hbad
    cases he.symm.trans hrun
  · intro hall
    obtain ⟨t', hrun, -⟩ := hfine hall
    exact ⟨t', hrun⟩

/-- `table.new(2, 0)`, a store at index 1, and what follows it there. -/
theorem tab_slots_array :
    letI : StrObj Bool := ⟨fun _ => 0⟩
    ∃ t', runTab (blank Bool 3 0) [(⟨none, fun _ _ => none⟩, .change (.setint 1 (.num 5))),
      (⟨none, fun _ _ => none⟩, .next .nil), (⟨none, fun _ _ => none⟩, .change .clear)] =
        .ok t' := by
  let : StrObj Bool := ⟨fun _ => 0⟩
  have hnew : (Size.newAh 2 0).create (fun _ => ⟨.nil, .num 7, some 0⟩) (fun _ => .bool true) =
      .ok (blank Bool 3 0) := by decide
  have hslot : (TabOp.change (.setint 1 (.num 5))).Fine ⟨none, fun _ _ => none⟩ (blank Bool 3 0) :=
    fun hle => absurd hle (by decide)
  refine ((tab_slots hnew).2 _).mpr ⟨hslot, fun t₁ ht₁ => ?_⟩
  have ht₁' : t₁ = ⟨[.nil, .num 5, .nil], [], 0, 0, 0⟩ := by
    cases ht₁
    rfl
  subst ht₁'
  exact ⟨.inl (.inl ⟨rfl, 1, .num 5, by decide, rfl, nofun⟩),
    fun t₂ _ => ⟨trivial, fun _ _ => trivial⟩⟩

/-- `table.new(2, 0)`, and a string key. -/
theorem tab_slots_string :
    letI : StrObj Bool := ⟨fun _ => 0⟩
    ¬ ∀ (size : Size) (garbage : ℕ → Node Bool) (garbageA : ℕ → Val Bool) (t : Tab Bool)
      (ops : List (KState Bool × TabOp Bool)), size.create garbage garbageA = .ok t →
        ∃ t', runTab t ops = .ok t' := by
  let : StrObj Bool := ⟨fun _ => 0⟩
  intro h
  obtain ⟨t', ht'⟩ := h (.newAh 2 0) (fun _ => Node.empty) (fun _ => .nil) (blank Bool 3 0)
    [(⟨none, fun _ _ => none⟩, .getstr true)] (by decide)
  have hrun : runTab (blank Bool 3 0) [(⟨none, fun _ _ => none⟩, .getstr true)] =
      .error .badAccess := rfl
  cases hrun.symm.trans ht'

end Ktap
