import ReadingComment.Ktap.Value
import ReadingComment.Lib.Run

/-!
# The compiler's own table (`userspace/kp_util.c`)

The compiler keeps the constants of a function in an array of nodes that is searched from the front,
filled from the back, and doubled when the last used node has come down to the front. A value is its
type and the word of its union (`TVal`); what memory holds in words that `set_nil` does not write is
a parameter (`junk`), and `realloc` succeeds whenever its size is a size.

A table is a finite map (`Inv`) as long as two things are avoided:

* a key that is neither a number nor a string is compared by its word alone, with free nodes as well
  as with keys of other types (`Clear`);
* after it was doubled the array is filled down to its very front, over the nodes that were in use
  before (`maxKeys`).
-/

namespace Ktap.User

open Function List

/-! ## Values and tables -/

/-- A `ktap_val_t`: the type and the word of the union. -/
structure TVal where
  itype : Itype
  word : BitVec 64
  deriving DecidableEq, Repr

/-- `is_nil(o)`. -/
def TVal.isNil (o : TVal) : Bool := o.itype == .nil

/-- `is_number(o)`. -/
def TVal.isNumber (o : TVal) : Bool := o.itype == .num

/-- `is_string(o)`. -/
def TVal.isString (o : TVal) : Bool := o.itype == .str

/-- `set_nil(o)`: the union keeps what it held. -/
def TVal.setNil (o : TVal) : TVal := { o with itype := .nil }

/-- `set_bool(o, x)`. -/
def TVal.setBool (o : TVal) (x : Bool) : TVal := { o with itype := .bool x }

/-- `set_number(o, n)`. -/
def TVal.number (n : Number) : TVal := ⟨.num, n⟩

/-- `set_string(o, str)`, with the address of the interned string. -/
def TVal.string (str : BitVec 64) : TVal := ⟨.str, str⟩

/-- `kp_obj_equal(t1, t2)` of the compiler: no look at the type of `t2`. -/
def kpObjEqual (t1 t2 : TVal) : Bool :=
  match t1.itype with
  | .nil => true
  | .bool _ => t1.itype == t2.itype
  | _ => t1.word == t2.word

/-- A `ktap_node_t`; the compiler does not use `next`. -/
structure UNode where
  val : TVal
  key : TVal
  deriving DecidableEq, Repr

/-- A `ktap_tab_t`: the nodes from `0` to `hmask` and the index of `freetop`. -/
structure UTab where
  node : List UNode
  freetop : ℕ
  deriving DecidableEq, Repr

/-- The call of `realloc` that cannot be made. -/
inductive Fault where
  /-- `size * 2` is no `int` -/
  | badSize
  deriving DecidableEq, Repr

/-- `kp_tab_new()`; `junk` is what `malloc` left in the unions of the values and the keys. -/
def kpTabNew (junk : ℕ → BitVec 64 × BitVec 64) : UTab where
  node := (List.range 1024).map fun i => ⟨⟨.nil, (junk i).1⟩, ⟨.nil, (junk i).2⟩⟩
  freetop := 1024

/-- The comparison of `kp_tab_get` with the key of one node. -/
def keyMatches (key v : TVal) : Bool :=
  match key.itype with
  | .nil => false
  | .num => v.isNumber && key.word == v.word
  | .str => v.isString && key.word == v.word
  | _ => kpObjEqual key v

/-- `kp_tab_get(t, key)`: the index of the node whose value is returned, `none` for `niltv`. -/
def kpTabGet (t : UTab) (key : TVal) : Option ℕ := t.node.findIdx? fun n => keyMatches key n.key

/-- `kp_tab_getstr(t, ts)`. -/
def kpTabGetstr (t : UTab) (ts : BitVec 64) : Option ℕ :=
  t.node.findIdx? fun n => n.key.isString && ts == n.key.word

/-- `sizeof(ktap_node_t)`. -/
def sizeofNode : ℕ := 40

/-- A node of memory that `memset` has cleared. -/
def zeroNode : UNode := ⟨⟨.obj .zero, 0⟩, ⟨.obj .zero, 0⟩⟩

/-- The doubling of the array when `freetop` has reached its front. -/
def grow (t : UTab) : Except Fault UTab :=
  if t.freetop = 0 then
    let size : ℤ := Int.bmod (t.node.length * sizeofNode) (2 ^ 32)
    if size < 0 ∨ 2 ^ 31 ≤ 2 * size then .error .badSize
    else .ok ⟨t.node ++ List.replicate t.node.length zeroNode, 2 * t.node.length⟩
  else .ok t

/-- `set_obj(gkey(n), key)` and a value for the node `n = --t->freetop`. -/
def addNode (t : UTab) (key : TVal) (val : TVal → TVal) : UTab where
  node := t.node.modify (t.freetop - 1) fun n => ⟨val n.val, key⟩
  freetop := t.freetop - 1

/-- `set_obj(gval(n), val)` for the node at an index. -/
def setVal (t : UTab) (i : ℕ) (val : TVal) : UTab :=
  { t with node := t.node.modify i fun n => { n with val := val } }

/-- `kp_tab_setvalue(t, key, val)`. -/
def kpTabSetvalue (t : UTab) (key val : TVal) : Except Fault UTab :=
  match kpTabGet t key with
  | some i => .ok (setVal t i val)
  | none => do
    let t ← grow t
    return addNode t key fun _ => val

/-- `kp_tab_set(t, key)`: the table and the index of the node whose value is returned. -/
def kpTabSet (t : UTab) (key : TVal) : Except Fault (UTab × ℕ) :=
  match kpTabGet t key with
  | some i => .ok (t, i)
  | none => do
    let t ← grow t
    return (addNode t key TVal.setNil, t.freetop - 1)

def valAt (t : UTab) (i : ℕ) : TVal := ((t.node[i]?).map UNode.val).getD ⟨.nil, 0⟩

/-! ## Keys -/

def TVal.IsObject (o : TVal) : Prop :=
  match o.itype with
  | .obj t => t ≠ .zero ∧ o.word ≠ 0
  | _ => False

instance (o : TVal) : Decidable o.IsObject := by
  unfold TVal.IsObject
  split <;> infer_instance

/-- The values that are kept as keys. -/
def TVal.IsKey (o : TVal) : Prop := o.itype = .num ∨ o.itype = .str ∨ o.IsObject

instance (o : TVal) : Decidable o.IsKey := by
  unfold TVal.IsKey
  infer_instance

/-- No node has the word of the key and another type, unless neither the key nor the node's key
is an object: such a node would be taken for the key's. -/
def Clear (t : UTab) (key : TVal) : Prop :=
  ∀ n ∈ t.node, n.key.word = key.word → n.key = key ∨ (¬ key.IsObject ∧ ¬ n.key.IsObject)

instance (t : UTab) (key : TVal) : Decidable (Clear t key) := by
  unfold Clear
  infer_instance

/-- The number of keys that a table holds before the array is filled a second time. -/
def maxKeys : ℕ := 2048

theorem TVal.number_isKey (n : Number) : (TVal.number n).IsKey := .inl rfl

theorem TVal.string_isKey (s : BitVec 64) : (TVal.string s).IsKey := .inr (.inl rfl)

theorem not_isObject_of_zero {o : TVal} (h : o.word = 0) : ¬ o.IsObject := by
  rw [TVal.IsObject]
  split
  · exact fun h' => h'.2 h
  · exact id

theorem TVal.eq_iff (a b : TVal) : a = b ↔ a.itype = b.itype ∧ b.word = a.word := by
  obtain ⟨ta, wa⟩ := a
  obtain ⟨tb, wb⟩ := b
  rw [TVal.mk.injEq]
  exact and_congr_right fun _ => eq_comm

theorem keyMatches_iff {t : UTab} {key : TVal} (hk : key.IsKey) (hc : Clear t key) {n : UNode}
    (hn : n ∈ t.node) : keyMatches key n.key = true ↔ n.key = key := by
  obtain ⟨ty, w⟩ := key
  rcases hk with hk | hk | hk
  · obtain rfl : ty = .num := hk
    rw [keyMatches, Bool.and_eq_true, TVal.isNumber, beq_iff_eq, beq_iff_eq]
    exact (TVal.eq_iff n.key ⟨_, w⟩).symm
  · obtain rfl : ty = .str := hk
    rw [keyMatches, Bool.and_eq_true, TVal.isString, beq_iff_eq, beq_iff_eq]
    exact (TVal.eq_iff n.key ⟨_, w⟩).symm
  · -- an object is looked for by its word
    obtain ⟨tag, rfl⟩ : ∃ tag, ty = .obj tag := by
      cases ty <;> first | exact ⟨_, rfl⟩ | exact hk.elim
    rw [keyMatches, kpObjEqual, beq_iff_eq]
    constructor
    · intro h
      rcases hc n hn h.symm with h | ⟨h, -⟩
      · exact h
      · exact absurd hk h
    · rintro h
      rw [h]

/-! ## Changing one node -/

section Modify

variable {α : Type} {l : List α} {i : ℕ} {x : α}

theorem modify_split (h : l[i]? = some x) (f : α → α) :
    ∃ a b, l = a ++ x :: b ∧ a.length = i ∧ l.modify i f = a ++ f x :: b := by
  obtain ⟨hi, rfl⟩ := List.getElem?_eq_some_iff.mp h
  refine ⟨l.take i, l.drop (i + 1), ?_, ?_, ?_⟩
  · rw [← drop_eq_getElem_cons hi, take_append_drop]
  · rw [length_take]
    omega
  · rw [modify_eq_take_cons_drop hi]

theorem getElem?_modify_self (h : l[i]? = some x) (f : α → α) :
    (l.modify i f)[i]? = some (f x) := by
  rw [getElem?_modify, h]
  simp only [if_pos, Option.map_eq_map, Option.map_some]

theorem getElem?_modify_of_ne {j : ℕ} (hij : j ≠ i) (f : α → α) :
    (l.modify i f)[j]? = l[j]? := by
  rw [getElem?_modify]
  simp only [if_neg hij.symm, id_map']

theorem getElem?_modify_cases (h : l[i]? = some x) {f : α → α} {j : ℕ} {y : α}
    (hy : (l.modify i f)[j]? = some y) : (j = i ∧ y = f x) ∨ (j ≠ i ∧ l[j]? = some y) := by
  rcases eq_or_ne j i with rfl | hij
  · rw [getElem?_modify_self h] at hy
    exact .inl ⟨rfl, (Option.some.inj hy).symm⟩
  · rw [getElem?_modify_of_ne hij] at hy
    exact .inr ⟨hij, hy⟩

theorem mem_modify (h : l[i]? = some x) {f : α → α} {y : α} (hy : y ∈ l.modify i f) :
    y ∈ l ∨ y = f x := by
  obtain ⟨j, hj⟩ := mem_iff_getElem?.mp hy
  rcases getElem?_modify_cases h hj with ⟨-, rfl⟩ | ⟨-, hj⟩
  · exact .inr rfl
  · exact .inl (mem_of_getElem? hj)

theorem countP_modify (h : l[i]? = some x) (f : α → α) (p : α → Bool) :
    (l.modify i f).countP p + (if p x then 1 else 0) =
      l.countP p + (if p (f x) then 1 else 0) := by
  obtain ⟨a, b, rfl, -, h⟩ := modify_split h f
  rw [h]
  simp only [countP_append, countP_cons]
  omega

end Modify

/-! ## A table that is a map -/

/-- What a slot holds: nothing was stored since `kp_tab_set` made it, or the last value. -/
inductive Slot where
  | fresh
  | stored (v : TVal)

def Slot.Holds : Slot → TVal → Prop
  | fresh, val => val.isNil = true
  | stored v, val => val = v

abbrev Map : Type := TVal → Option Slot

def UNode.inUse (n : UNode) : Bool := decide n.key.IsKey

def held (t : UTab) : ℕ := t.node.countP UNode.inUse

/-- The parts of the array: the nodes that were in use when it was doubled, the free nodes and
the nodes that were taken since. -/
structure Parts (t : UTab) (low free high : List UNode) : Prop where
  node : t.node = low ++ (free ++ high)
  freetop : t.freetop = low.length + free.length
  half : free.length + high.length = 1024
  lowLength : low.length = 0 ∨ low.length = 1024
  lowInUse : ∀ n ∈ low, n.inUse = true
  highInUse : ∀ n ∈ high, n.inUse = true
  blank : ∀ n ∈ free, n.inUse = false

/-- The table holds the map. -/
structure Inv (t : UTab) (m : Map) : Prop where
  parts : ∃ low free high, Parts t low free high
  /-- no key is in two nodes -/
  inj : ∀ (i j : ℕ) (n n' : UNode), t.node[i]? = some n → t.node[j]? = some n' →
    n.inUse = true → n.key = n'.key → i = j
  holds : ∀ n ∈ t.node, n.inUse = true → ∃ s, m n.key = some s ∧ s.Holds n.val
  covers : ∀ k s, m k = some s → k.IsKey ∧ ∃ n ∈ t.node, n.key = k
  clear : ∀ k s, m k = some s → Clear t k

namespace Parts

variable {t : UTab} {low free high : List UNode}

section

variable (h : Parts t low free high)

include h

theorem held_eq : held t = low.length + high.length := by
  have hl : low.countP UNode.inUse = low.length := countP_eq_length.mpr h.lowInUse
  have hh : high.countP UNode.inUse = high.length := countP_eq_length.mpr h.highInUse
  have hf : free.countP UNode.inUse = 0 := by
    rw [countP_eq_zero]
    intro n hn
    rw [h.blank n hn]
    decide
  rw [held, h.node, countP_append, countP_append, hl, hh, hf]
  omega

theorem length_le : t.node.length ≤ 2048 := by
  rw [h.node, length_append, length_append]
  have := h.lowLength
  have := h.half
  omega

theorem full (h0 : t.freetop = 0) :
    low = [] ∧ free = [] ∧ high.length = 1024 := by
  have hf := h.freetop
  have hh := h.half
  refine ⟨?_, ?_, ?_⟩
  · apply eq_nil_of_length_eq_zero
    omega
  · apply eq_nil_of_length_eq_zero
    omega
  · omega

/-- When there is room and the pointer is not at the front, the node below it is free, and it can
be taken for a key. -/
theorem addNode (hroom : held t < maxKeys) (h0 : t.freetop ≠ 0) {k : TVal} (hk : k.IsKey)
    (val : TVal → TVal) :
    ∃ x, t.node[t.freetop - 1]? = some x ∧ x.inUse = false ∧
      ∃ rest, Parts (User.addNode t k val) low rest (⟨val x.val, k⟩ :: high) := by
  have hf := h.freetop
  have hh := h.half
  have hne : free ≠ [] := by
    rintro rfl
    have hheld := h.held_eq
    have hl := h.lowLength
    rw [length_nil] at hf hh
    rw [maxKeys] at hroom
    omega
  obtain ⟨rest, x, rfl⟩ := (eq_nil_or_concat' free).resolve_left hne
  rw [length_append, length_singleton] at hf hh
  have hpos : t.freetop - 1 = (low ++ rest).length := by
    rw [length_append]
    omega
  have hnode : t.node = (low ++ rest) ++ x :: high := by
    rw [h.node]
    simp only [append_assoc, cons_append, nil_append]
  have hx : t.node[t.freetop - 1]? = some x := by
    rw [hnode, hpos, getElem?_append_right (Nat.le_refl _), Nat.sub_self]
    rfl
  refine ⟨x, hx, h.blank x (mem_append_right _ (mem_singleton.mpr rfl)), rest, ?_, ?_, ?_,
    h.lowLength, h.lowInUse, ?_, ?_⟩
  · obtain ⟨a, b, hab, hlen, hmod⟩ := modify_split hx fun n => ⟨val n.val, k⟩
    obtain ⟨rfl, h'⟩ := append_inj (hab.symm.trans hnode) (hlen.trans hpos)
    obtain rfl := (List.cons.inj h').2
    rw [← append_assoc]
    exact hmod
  · rw [← length_append, ← hpos]
    rfl
  · rw [length_cons]
    omega
  · intro n hn
    rcases mem_cons.mp hn with rfl | hn
    · exact decide_eq_true hk
    · exact h.highInUse n hn
  · exact fun n hn => h.blank n (mem_append_left _ hn)

theorem of_keys {t' : UTab} (hkeys : t'.node.map UNode.key = t.node.map UNode.key)
    (hfree : t'.freetop = t.freetop) :
    ∃ low' free' high', Parts t' low' free' high' := by
  rw [h.node, map_append, map_append] at hkeys
  obtain ⟨low', rest, hnode, hlow, hrest⟩ := map_eq_append_iff.mp hkeys
  obtain ⟨free', high', rfl, hmid, hhigh⟩ := map_eq_append_iff.mp hrest
  have hlen : ∀ {l l' : List UNode}, l'.map UNode.key = l.map UNode.key → l'.length = l.length := by
    intro l l' hl
    simpa using congrArg List.length hl
  have huse : ∀ {l l' : List UNode} {b : Bool}, l'.map UNode.key = l.map UNode.key →
      (∀ n ∈ l, n.inUse = b) → ∀ n ∈ l', n.inUse = b := by
    intro l l' b hl hb n hn
    have hkey : n.key ∈ l.map UNode.key := hl ▸ mem_map_of_mem hn
    obtain ⟨n₀, hn₀, hkey⟩ := mem_map.mp hkey
    rw [UNode.inUse, ← hkey]
    exact hb n₀ hn₀
  refine ⟨low', free', high', hnode, ?_, ?_, ?_, huse hlow h.lowInUse, huse hhigh h.highInUse,
    huse hmid h.blank⟩
  · rw [hfree, h.freetop, hlen hlow, hlen hmid]
  · rw [hlen hmid, hlen hhigh]
    exact h.half
  · rw [hlen hlow]
    exact h.lowLength

end

end Parts

/-! ## What the functions do to the map -/

section Spec

variable {t : UTab} {m : Map} {k : TVal}

theorem kpTabGet_eq_none (hk : k.IsKey) (hc : Clear t k) :
    kpTabGet t k = none ↔ ∀ n ∈ t.node, n.key ≠ k := by
  rw [kpTabGet, findIdx?_eq_none_iff]
  constructor
  · intro h n hn hkey
    have := h n hn
    rw [(keyMatches_iff hk hc hn).mpr hkey] at this
    cases this
  · intro h n hn
    rw [Bool.eq_false_iff]
    intro hm
    exact h n hn ((keyMatches_iff hk hc hn).mp hm)

theorem kpTabGet_eq_some (hk : k.IsKey) (hc : Clear t k) {i : ℕ} (h : kpTabGet t k = some i) :
    ∃ n, t.node[i]? = some n ∧ n.key = k := by
  rw [kpTabGet, findIdx?_eq_some_iff_getElem] at h
  obtain ⟨hi, hm, -⟩ := h
  exact ⟨t.node[i], getElem?_eq_getElem hi,
    (keyMatches_iff hk hc (getElem_mem hi)).mp hm⟩

theorem inUse_iff {n : UNode} : n.inUse = true ↔ n.key.IsKey := decide_eq_true_iff

theorem Inv.grow (h : Inv t m) (h0 : t.freetop = 0) :
    ∃ t', User.grow t = .ok t' ∧ t'.node = t.node ++ List.replicate t.node.length zeroNode ∧
      t'.freetop = 2048 ∧ Inv t' m := by
  obtain ⟨low, free, high, hp⟩ := h.parts
  obtain ⟨rfl, rfl, hlen⟩ := hp.full h0
  have hnode : t.node = high := by simpa using hp.node
  have hzero : ∀ n ∈ List.replicate t.node.length zeroNode, n = zeroNode :=
    fun n hn => eq_of_mem_replicate hn
  refine ⟨⟨t.node ++ List.replicate t.node.length zeroNode, 2 * t.node.length⟩, ?_, rfl, ?_, ?_⟩
  · rw [User.grow, if_pos h0, hnode, hlen]
    rfl
  · show 2 * t.node.length = 2048
    rw [hnode, hlen]
  · constructor
    · refine ⟨high, List.replicate 1024 zeroNode, [], ?_, ?_, ?_, .inr hlen, hp.highInUse, ?_, ?_⟩
      · rw [hnode, hlen, append_nil]
      · rw [hnode, hlen, length_replicate]
      · rw [length_replicate, length_nil]
      · intro n hn
        cases hn
      · intro n hn
        rw [eq_of_mem_replicate hn]
        decide
    · intro i j n n' hi hj hu hkey
      have hold :
          ∀ {i : ℕ} {n : UNode}, (t.node ++ List.replicate t.node.length zeroNode)[i]? = some n →
          n.inUse = true → t.node[i]? = some n := by
        intro i n hi hu
        rw [getElem?_append] at hi
        split at hi
        · exact hi
        · have := hzero n (mem_of_getElem? hi)
          rw [this] at hu
          cases hu
      have hu' : n'.inUse = true := by
        rw [inUse_iff, ← hkey, ← inUse_iff]
        exact hu
      exact h.inj i j n n' (hold hi hu) (hold hj hu') hu hkey
    · intro n hn hu
      rcases mem_append.mp hn with hn | hn
      · exact h.holds n hn hu
      · rw [hzero n hn] at hu
        cases hu
    · intro k s hk
      obtain ⟨hkey, n, hn, rfl⟩ := h.covers k s hk
      exact ⟨hkey, n, mem_append_left _ hn, rfl⟩
    · intro k s hk n hn hw
      rcases mem_append.mp hn with hn | hn
      · exact h.clear k s hk n hn hw
      · -- an object is not at the address zero
        rw [hzero n hn] at hw ⊢
        exact .inr ⟨not_isObject_of_zero hw.symm, by decide⟩

theorem Inv.next (h : Inv t m) (hroom : held t < maxKeys) (h0 : t.freetop ≠ 0) :
    ∃ x, t.node[t.freetop - 1]? = some x ∧ x.inUse = false := by
  obtain ⟨low, free, high, hp⟩ := h.parts
  obtain ⟨x, hx, hblank, -⟩ := hp.addNode hroom h0 (TVal.number_isKey 0) id
  exact ⟨x, hx, hblank⟩

theorem Inv.addNode (h : Inv t m) (hroom : held t < maxKeys) (h0 : t.freetop ≠ 0) (hk : k.IsKey)
    (hc : Clear t k) (hnew : ∀ n ∈ t.node, n.key ≠ k) {val : TVal → TVal} {s : Slot}
    (hs : ∀ v, s.Holds (val v)) :
    Inv (addNode t k val) (update m k (some s)) := by
  obtain ⟨low, free, high, hp⟩ := h.parts
  obtain ⟨x, hx, hblank, rest, hp'⟩ := hp.addNode hroom h0 hk val
  have hin : (⟨val x.val, k⟩ : UNode).inUse = true := inUse_iff.mpr hk
  have hself : (User.addNode t k val).node[t.freetop - 1]? = some ⟨val x.val, k⟩ :=
    getElem?_modify_self hx _
  refine ⟨⟨_, _, _, hp'⟩, ?_, ?_, ?_, ?_⟩
  · intro i j n n' hi hj hu hkey
    rcases getElem?_modify_cases hx hi with ⟨rfl, rfl⟩ | ⟨-, hi⟩ <;>
      rcases getElem?_modify_cases hx hj with ⟨rfl, rfl⟩ | ⟨-, hj⟩
    · rfl
    · exact absurd hkey.symm (hnew n' (mem_of_getElem? hj))
    · exact absurd hkey (hnew n (mem_of_getElem? hi))
    · exact h.inj i j n n' hi hj hu hkey
  · intro n hn hu
    rcases mem_modify hx hn with hn | rfl
    · -- the other nodes have other keys
      rw [update_of_ne (hnew n hn)]
      exact h.holds n hn hu
    · exact ⟨s, update_self _ _ _, hs _⟩
  · intro k' s' hk'
    by_cases hkk : k' = k
    · subst hkk
      exact ⟨hk, _, mem_of_getElem? hself, rfl⟩
    · rw [update_of_ne hkk] at hk'
      obtain ⟨hkey, n, hn, rfl⟩ := h.covers k' s' hk'
      obtain ⟨i, hi⟩ := mem_iff_getElem?.mp hn
      have hne : i ≠ t.freetop - 1 := by
        rintro rfl
        rw [hx] at hi
        cases hi
        rw [inUse_iff.mpr hkey] at hblank
        cases hblank
      refine ⟨hkey, n, mem_iff_getElem?.mpr ⟨i, ?_⟩, rfl⟩
      rw [User.addNode, getElem?_modify_of_ne hne]
      exact hi
  · intro k' s' hk' n hn hw
    by_cases hkk : k' = k
    · subst hkk
      rcases mem_modify hx hn with hn | rfl
      · exact hc n hn hw
      · exact .inl rfl
    · rw [update_of_ne hkk] at hk'
      rcases mem_modify hx hn with hn | rfl
      · exact h.clear k' s' hk' n hn hw
      · -- the key that was there is clear of the new one
        obtain ⟨-, n', hn', rfl⟩ := h.covers k' s' hk'
        rcases hc n' hn' hw.symm with h' | ⟨h₁, h₂⟩
        · exact absurd h' hkk
        · exact .inr ⟨h₂, h₁⟩

def Stays (t t' : UTab) : Prop :=
  ∀ (i : ℕ) (n : UNode), t.node[i]? = some n → n.inUse = true →
    ∃ n', t'.node[i]? = some n' ∧ n'.key = n.key

theorem setVal_keys (t : UTab) (i : ℕ) (v : TVal) :
    (User.setVal t i v).node.map UNode.key = t.node.map UNode.key := by
  apply ext_getElem?
  intro j
  rw [User.setVal, getElem?_map, getElem?_map, getElem?_modify]
  cases t.node[j]? with
  | none => rfl
  | some n =>
    simp only [Option.map_eq_map, Option.map_some]
    split <;> rfl

theorem setVal_stays (t : UTab) (i : ℕ) (v : TVal) : Stays t (User.setVal t i v) := by
  intro j n hj _
  have := congrArg (fun l : List TVal => l[j]?) (setVal_keys t i v)
  simp only [getElem?_map, hj, Option.map_some] at this
  exact Option.map_eq_some_iff.mp this

theorem Inv.setVal (h : Inv t m) {i : ℕ} {n : UNode} (hi : t.node[i]? = some n)
    (hu : n.inUse = true) (v : TVal) :
    Inv (setVal t i v) (update m n.key (some (.stored v))) := by
  have hkey : ∀ {j : ℕ} {n' : UNode}, (User.setVal t i v).node[j]? = some n' →
      ∃ n₀, t.node[j]? = some n₀ ∧ n₀.key = n'.key := by
    intro j n' hj
    rcases getElem?_modify_cases hi hj with ⟨rfl, rfl⟩ | ⟨-, hj⟩
    · exact ⟨n, hi, rfl⟩
    · exact ⟨n', hj, rfl⟩
  have hkeys := setVal_keys t i v
  refine ⟨?_, ?_, ?_, ?_, ?_⟩
  · obtain ⟨low, free, high, hp⟩ := h.parts
    exact hp.of_keys hkeys rfl
  · intro j j' n₁ n₂ hj hj' hu' heq
    obtain ⟨n₃, hj, h₃⟩ := hkey hj
    obtain ⟨n₄, hj', h₄⟩ := hkey hj'
    apply h.inj j j' n₃ n₄ hj hj'
    · rw [inUse_iff, h₃, ← inUse_iff]
      exact hu'
    · rw [h₃, h₄, heq]
  · intro n' hn' hu'
    obtain ⟨j, hj⟩ := mem_iff_getElem?.mp hn'
    rcases getElem?_modify_cases hi hj with ⟨rfl, rfl⟩ | ⟨hne, hj⟩
    · exact ⟨.stored v, update_self _ _ _, rfl⟩
    · have hne' : n'.key ≠ n.key := fun heq => hne (h.inj j i n' n hj hi hu' heq)
      rw [update_of_ne hne']
      exact h.holds n' (mem_of_getElem? hj) hu'
  · intro k' s' hk'
    have hold : k'.IsKey ∧ ∃ n ∈ t.node, n.key = k' := by
      rcases eq_or_ne k' n.key with rfl | hne
      · exact ⟨inUse_iff.mp hu, n, mem_of_getElem? hi, rfl⟩
      · rw [update_of_ne hne] at hk'
        exact h.covers k' s' hk'
    refine ⟨hold.1, ?_⟩
    rw [← mem_map, hkeys, mem_map]
    exact hold.2
  · intro k' s' hk'
    have hold : Clear t k' := by
      rcases eq_or_ne k' n.key with rfl | hne
      · obtain ⟨s, hs, -⟩ := h.holds n (mem_of_getElem? hi) hu
        exact h.clear _ s hs
      · rw [update_of_ne hne] at hk'
        exact h.clear k' s' hk'
    intro n' hn' hw
    obtain ⟨j, hj⟩ := mem_iff_getElem?.mp hn'
    obtain ⟨n₀, hj, h₀⟩ := hkey hj
    rw [← h₀] at hw ⊢
    exact hold n₀ (mem_of_getElem? hj) hw

theorem Inv.get (h : Inv t m) {s : Slot} (hk : m k = some s) :
    ∃ i n, kpTabGet t k = some i ∧ t.node[i]? = some n ∧ n.key = k ∧ n.inUse = true ∧
      s.Holds n.val := by
  obtain ⟨hkey, n₀, hn₀, hn₀k⟩ := h.covers k s hk
  have hc := h.clear k s hk
  cases hget : kpTabGet t k with
  | none => exact absurd hn₀k ((kpTabGet_eq_none hkey hc).mp hget n₀ hn₀)
  | some i =>
    obtain ⟨n, hi, rfl⟩ := kpTabGet_eq_some hkey hc hget
    have hu := inUse_iff.mpr hkey
    obtain ⟨s', hs', hholds⟩ := h.holds n (mem_of_getElem? hi) hu
    obtain rfl := Option.some.inj (hk.symm.trans hs')
    exact ⟨i, n, rfl, hi, rfl, hu, hholds⟩

theorem Inv.not_mem (h : Inv t m) (hk : k.IsKey) (hm : m k = none) : ∀ n ∈ t.node, n.key ≠ k := by
  rintro n hn rfl
  obtain ⟨s, hs, -⟩ := h.holds n hn (inUse_iff.mpr hk)
  rw [hm] at hs
  cases hs

theorem Inv.get_none (h : Inv t m) (hk : k.IsKey) (hc : Clear t k) (hm : m k = none) :
    kpTabGet t k = none := (kpTabGet_eq_none hk hc).mpr (h.not_mem hk hm)

theorem Inv.get_node (h : Inv t m) {i : ℕ} {n : UNode} (hi : t.node[i]? = some n)
    (hu : n.inUse = true) : kpTabGet t n.key = some i := by
  obtain ⟨s, hs, -⟩ := h.holds n (mem_of_getElem? hi) hu
  obtain ⟨j, n', hget, hj, hkey, -, -⟩ := h.get hs
  rw [h.inj i j n n' hi hj hu hkey.symm]
  exact hget

/-- The table can take the key. -/
def Fit (t : UTab) (key : TVal) : Prop :=
  Clear t key ∧ ((∀ n ∈ t.node, n.key ≠ key) → held t < maxKeys)

instance (t : UTab) (key : TVal) : Decidable (Fit t key) := by
  unfold Fit
  infer_instance

theorem Inv.addNode_stays (h : Inv t m) (hroom : held t < maxKeys) (h0 : t.freetop ≠ 0)
    (val : TVal → TVal) : Stays t (User.addNode t k val) := by
  intro i n hi hu
  obtain ⟨x, hx, hblank⟩ := h.next hroom h0
  have hne : i ≠ t.freetop - 1 := by
    rintro rfl
    rw [hx] at hi
    cases hi
    rw [hblank] at hu
    cases hu
  refine ⟨n, ?_, rfl⟩
  rw [User.addNode, getElem?_modify_of_ne hne]
  exact hi

theorem countP_addNode {x : UNode} (hx : t.node[t.freetop - 1]? = some x) {p : UNode → Bool}
    (hp : p x = false) (k : TVal) (val : TVal → TVal) :
    (User.addNode t k val).node.countP p =
      t.node.countP p + (if p ⟨val x.val, k⟩ then 1 else 0) := by
  have h := countP_modify hx (fun n => ⟨val n.val, k⟩) p
  rw [hp] at h
  exact h

theorem Inv.insert (h : Inv t m) (hk : k.IsKey) (hf : Fit t k) (hm : m k = none)
    (val : TVal → TVal) (s : Slot) (hs : ∀ v, s.Holds (val v)) :
    ∃ t', User.grow t = .ok t' ∧
      Inv (User.addNode t' k val) (update m k (some s)) ∧
      ((User.addNode t' k val).node.length = t.node.length → Stays t (User.addNode t' k val)) ∧
      ∃ x, (User.addNode t' k val).node[t'.freetop - 1]? = some ⟨val x, k⟩ ∧
        ∀ p : UNode → Bool, (∀ n, n.inUse = false → p n = false) →
          (User.addNode t' k val).node.countP p =
            t.node.countP p + (if p ⟨val x, k⟩ then 1 else 0) := by
  have hnew := h.not_mem hk hm
  have hroom := hf.2 hnew
  rcases eq_or_ne t.freetop 0 with h0 | h0
  · -- the array moves, and the zeroed nodes are clear of an object's key
    obtain ⟨t', hgrow, hnode, hfree, hinv⟩ := h.grow h0
    have h0' : t'.freetop ≠ 0 := by omega
    have hcount : ∀ p : UNode → Bool, p zeroNode = false → t'.node.countP p = t.node.countP p := by
      intro p hp
      rw [hnode, countP_append, countP_replicate, if_neg (by simp [hp]), Nat.add_zero]
    have hroom' : held t' < maxKeys := by
      rw [held, hcount _ rfl]
      exact hroom
    have hmem : ∀ n ∈ t'.node, n ∈ t.node ∨ n = zeroNode := by
      intro n hn
      rw [hnode, mem_append] at hn
      exact hn.imp_right eq_of_mem_replicate
    have hnew' : ∀ n ∈ t'.node, n.key ≠ k := by
      intro n hn
      rcases hmem n hn with hn | rfl
      · exact hnew n hn
      · rintro rfl
        exact absurd hk (by decide)
    have hc' : Clear t' k := by
      intro n hn hw
      rcases hmem n hn with hn | rfl
      · exact hf.1 n hn hw
      · exact .inr ⟨not_isObject_of_zero hw.symm, by decide⟩
    obtain ⟨x, hx, hblank⟩ := hinv.next hroom' h0'
    refine ⟨t', hgrow, hinv.addNode hroom' h0' hk hc' hnew' hs, ?_, x.val,
      getElem?_modify_self hx _, ?_⟩
    · intro hlen
      have hpos : 0 < t.node.length := by
        obtain ⟨low, free, high, hp⟩ := h.parts
        obtain ⟨rfl, rfl, hlen⟩ := hp.full h0
        rw [hp.node]
        simp [hlen]
      rw [User.addNode, length_modify, hnode, length_append,
        length_replicate] at hlen
      omega
    · intro p hp
      rw [← hcount p (hp _ rfl)]
      exact countP_addNode hx (hp x hblank) k val
  · obtain ⟨x, hx, hblank⟩ := h.next hroom h0
    refine ⟨t, ?_, h.addNode hroom h0 hk hf.1 hnew hs, fun _ => h.addNode_stays hroom h0 val, x.val,
      getElem?_modify_self hx _, fun p hp => countP_addNode hx (hp x hblank) k val⟩
    rw [User.grow, if_neg h0]

theorem Inv.set_old (h : Inv t m) {s : Slot} (hk : m k = some s) :
    ∃ i n, kpTabSet t k = .ok (t, i) ∧ t.node[i]? = some n ∧ n.key = k ∧ s.Holds n.val := by
  obtain ⟨i, n, hget, hi, hkey, -, hs⟩ := h.get hk
  refine ⟨i, n, ?_, hi, hkey, hs⟩
  rw [kpTabSet, hget]

theorem Inv.set_new (h : Inv t m) (hk : k.IsKey) (hf : Fit t k) (hm : m k = none) :
    ∃ t' i n, kpTabSet t k = .ok (t', i) ∧ Inv t' (update m k (some .fresh)) ∧
      (t'.node.length = t.node.length → Stays t t') ∧
      t'.node[i]? = some n ∧ n.key = k ∧ n.val.isNil = true ∧
      ∀ p : UNode → Bool, (∀ n, n.inUse = false → p n = false) →
        t'.node.countP p = t.node.countP p + (if p n then 1 else 0) := by
  obtain ⟨t', hgrow, hinv, hstays, x, hx, hcount⟩ :=
    h.insert hk hf hm TVal.setNil .fresh fun _ => rfl
  refine ⟨_, _, _, ?_, hinv, hstays, hx, rfl, rfl, hcount⟩
  rw [kpTabSet, h.get_none hk hf.1 hm]
  simp only [hgrow]
  rfl

theorem Inv.setvalue (h : Inv t m) (hk : k.IsKey) (hf : Fit t k) (v : TVal) :
    ∃ t', kpTabSetvalue t k v = .ok t' ∧ Inv t' (update m k (some (.stored v))) ∧
      (t'.node.length = t.node.length → Stays t t') := by
  cases hm : m k with
  | none =>
    obtain ⟨t', hgrow, hinv, hstays, -⟩ :=
      h.insert hk hf hm (fun _ => v) (.stored v) fun _ => rfl
    refine ⟨_, ?_, hinv, hstays⟩
    rw [kpTabSetvalue, h.get_none hk hf.1 hm]
    simp only [hgrow]
    rfl
  | some s =>
    obtain ⟨i, n, hget, hi, rfl, hu, -⟩ := h.get hm
    refine ⟨_, ?_, h.setVal hi hu v, fun _ => setVal_stays t i v⟩
    rw [kpTabSetvalue, hget]

end Spec

/-! ## Runs of calls -/

/-- A call of a function of the table, or a store through a slot that `kp_tab_set` returned. -/
inductive Call where
  | set (key : TVal)
  | get (key : TVal)
  | getstr (ts : BitVec 64)
  | setvalue (key val : TVal)
  | store (key : TVal) (slot : ℕ) (val : TVal)

/-- The table, what was last stored for each key, and the slots that `kp_tab_set` returned since
the array was last moved, with their keys. -/
structure World where
  tab : UTab
  map : Map
  slots : List (TVal × ℕ)

def World.slotsFor (w : World) (t' : UTab) : List (TVal × ℕ) :=
  if t'.node.length = w.tab.node.length then w.slots else []

/-- A call, and what was told about the slots before. -/
def World.call (w : World) : Call → Except Fault World
  | .set key => do
    let (t', i) ← kpTabSet w.tab key
    return ⟨t', if (w.map key).isSome then w.map else Function.update w.map key (some .fresh),
      (key, i) :: w.slotsFor t'⟩
  | .get _ => .ok w
  | .getstr _ => .ok w
  | .setvalue key val => do
    let t' ← kpTabSetvalue w.tab key val
    return ⟨t', Function.update w.map key (some (.stored val)), w.slotsFor t'⟩
  | .store key slot val =>
    .ok { w with tab := setVal w.tab slot val,
                 map := Function.update w.map key (some (.stored val)) }

/-- Keys are numbers, strings and objects, and a slot that is stored to was returned for the key
and the array was not moved since. -/
def World.Allowed (w : World) : Call → Prop
  | .set key => key.IsKey
  | .get key => key.IsKey
  | .getstr _ => True
  | .setvalue key _ => key.IsKey
  | .store key slot _ => (key, slot) ∈ w.slots

def World.Fits (w : World) : Call → Prop
  | .set key => Fit w.tab key
  | .setvalue key _ => Fit w.tab key
  | _ => True

/-- The calls of the table of a function. -/
def calls (junk : ℕ → BitVec 64 × BitVec 64) : Lib.System World Call Fault where
  init := ⟨kpTabNew junk, fun _ => none, []⟩
  Allowed := World.Allowed
  step := World.call

/-- **The table is a finite map**: every key is found with the value last stored in the slot that
was returned for it, a key that was never set is not found, and the slots of distinct keys are
distinct. -/
structure World.FiniteMap (w : World) : Prop where
  found : ∀ k s, w.map k = some s → ∃ i, kpTabGet w.tab k = some i ∧ s.Holds (valAt w.tab i)
  absent : ∀ k, k.IsKey → Clear w.tab k → w.map k = none → kpTabGet w.tab k = none
  slot : ∀ k i, (k, i) ∈ w.slots → kpTabGet w.tab k = some i
  distinct : ∀ k k' i, kpTabGet w.tab k = some i → kpTabGet w.tab k' = some i →
    (w.map k).isSome → (w.map k').isSome → k = k'

theorem kpTabGetstr_eq (t : UTab) (ts : BitVec 64) : kpTabGetstr t ts = kpTabGet t (.string ts) :=
  rfl

/-- The invariant of runs. -/
structure World.Good (w : World) : Prop where
  inv : Inv w.tab w.map
  slots : ∀ k i, (k, i) ∈ w.slots → ∃ n, w.tab.node[i]? = some n ∧ n.key = k ∧ n.inUse = true

section Runs

variable {w w' : World} {a : Call}

theorem valAt_eq {t : UTab} {i : ℕ} {n : UNode} (h : t.node[i]? = some n) : valAt t i = n.val := by
  rw [valAt, h]
  rfl

theorem World.Good.finiteMap (h : w.Good) : w.FiniteMap := by
  refine ⟨?_, ?_, ?_, ?_⟩
  · intro k s hk
    obtain ⟨i, n, hget, hi, -, -, hs⟩ := h.inv.get hk
    refine ⟨i, hget, ?_⟩
    rw [valAt_eq hi]
    exact hs
  · exact fun k hk hc hm => h.inv.get_none hk hc hm
  · intro k i hki
    obtain ⟨n, hi, rfl, hu⟩ := h.slots k i hki
    exact h.inv.get_node hi hu
  · intro k k' i hk hk' hm hm'
    obtain ⟨s, hs⟩ := Option.isSome_iff_exists.mp hm
    obtain ⟨s', hs'⟩ := Option.isSome_iff_exists.mp hm'
    obtain ⟨j, n, hget, hj, rfl, -, -⟩ := h.inv.get hs
    obtain ⟨j', n', hget', hj', rfl, -, -⟩ := h.inv.get hs'
    obtain rfl := Option.some.inj (hk.symm.trans hget)
    obtain rfl := Option.some.inj (hk'.symm.trans hget')
    rw [hj] at hj'
    rw [Option.some.inj hj']

theorem World.Good.slotsFor (h : w.Good) {t' : UTab}
    (hstays : t'.node.length = w.tab.node.length → Stays w.tab t') :
    ∀ k i, (k, i) ∈ w.slotsFor t' → ∃ n, t'.node[i]? = some n ∧ n.key = k ∧ n.inUse = true := by
  intro k i hki
  rw [World.slotsFor] at hki
  split at hki
  · rename_i hlen
    obtain ⟨n, hi, rfl, hu⟩ := h.slots k i hki
    obtain ⟨n', hi', hkey⟩ := hstays hlen i n hi hu
    refine ⟨n', hi', hkey, ?_⟩
    rw [inUse_iff, hkey, ← inUse_iff]
    exact hu
  · cases hki

theorem World.call_set_new {k : TVal} {t' : UTab} {i : ℕ} (hset : kpTabSet w.tab k = .ok (t', i))
    (hm : w.map k = none) :
    w.call (.set k) = .ok ⟨t', update w.map k (some .fresh), (k, i) :: w.slotsFor t'⟩ := by
  rw [World.call, hset, hm]
  rfl

/-- **The step lemma**: a call with keys that fit succeeds and keeps the invariant. -/
theorem World.Good.call (h : w.Good) (ha : w.Allowed a) (hf : w.Fits a) :
    ∃ w', w.call a = .ok w' ∧ w'.Good := by
  cases a with
  | set key =>
    have hkey : key.IsKey := ha
    cases hm : w.map key with
    | none =>
      obtain ⟨t', i, n, hset, hinv, hstays, hi, hn, -⟩ := h.inv.set_new hkey hf hm
      refine ⟨_, World.call_set_new hset hm, hinv, ?_⟩
      intro k j hkj
      rcases mem_cons.mp hkj with heq | hkj
      · cases heq
        exact ⟨n, hi, hn, inUse_iff.mpr (hn ▸ hkey)⟩
      · exact h.slotsFor hstays k j hkj
    | some s =>
      obtain ⟨i, n, hset, hi, hn, -⟩ := h.inv.set_old hm
      refine ⟨⟨w.tab, w.map, (key, i) :: w.slotsFor w.tab⟩, ?_, h.inv, ?_⟩
      · rw [World.call, hset, hm]
        rfl
      · intro k j hkj
        rcases mem_cons.mp hkj with heq | hkj
        · cases heq
          exact ⟨n, hi, hn, inUse_iff.mpr (hn ▸ hkey)⟩
        · exact h.slotsFor (fun _ i n hi _ => ⟨n, hi, rfl⟩) k j hkj
  | get key => exact ⟨w, rfl, h⟩
  | getstr ts => exact ⟨w, rfl, h⟩
  | setvalue key val =>
    obtain ⟨t', hset, hinv, hstays⟩ := h.inv.setvalue ha hf val
    refine ⟨⟨t', _, w.slotsFor t'⟩, ?_, hinv, h.slotsFor hstays⟩
    rw [World.call, hset]
    rfl
  | store key slot val =>
    obtain ⟨n, hi, rfl, hu⟩ := h.slots key slot ha
    refine ⟨_, rfl, h.inv.setVal hi hu val, ?_⟩
    have hstays := h.slotsFor fun _ => setVal_stays w.tab slot val
    rw [World.slotsFor, setVal, length_modify, if_pos rfl] at hstays
    exact hstays

theorem kpTabNew_blank {junk : ℕ → BitVec 64 × BitVec 64} :
    ∀ n ∈ (kpTabNew junk).node, n.inUse = false := by
  intro n hn
  simp only [kpTabNew, mem_map] at hn
  obtain ⟨i, -, rfl⟩ := hn
  rfl

theorem kpTabNew_inv (junk : ℕ → BitVec 64 × BitVec 64) : Inv (kpTabNew junk) fun _ => none := by
  have hblank := @kpTabNew_blank junk
  refine ⟨⟨[], (kpTabNew junk).node, [], ?_, ?_, ?_, .inl rfl, ?_, ?_, hblank⟩, ?_, ?_, ?_, ?_⟩
  · rw [append_nil, nil_append]
  · rw [kpTabNew, length_map, length_range, length_nil]
  · rw [kpTabNew, length_map, length_range, length_nil]
  · intro n hn
    cases hn
  · intro n hn
    cases hn
  · intro i j n n' hi _ hu
    rw [hblank n (mem_of_getElem? hi)] at hu
    cases hu
  · intro n hn hu
    rw [hblank n hn] at hu
    cases hu
  · intro k s hk
    cases hk
  · intro k s hk
    cases hk

theorem good_of_reach {junk : ℕ → BitVec 64 × BitVec 64} (h : (calls junk).Reach World.Fits w) :
    w.Good := by
  apply h.invariant
  · refine ⟨kpTabNew_inv junk, ?_⟩
    intro k i hki
    cases hki
  · intro w a w' hw ha hf hstep
    obtain ⟨w'', hcall, hw''⟩ := hw.call ha hf
    obtain rfl := Except.ok.inj (hcall.symm.trans hstep)
    exact hw''

end Runs

end Ktap.User
