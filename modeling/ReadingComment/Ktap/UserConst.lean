import ReadingComment.Ktap.UserTab

/-!
# The constants of a function (`userspace/kp_parse.c`)

The parser numbers the constants of a function by what the slot of the constant
holds in the function's table: a number is the index that was given to the
constant. So the indices are as good as the table is a map, and the last section
has both: every run whose keys fit keeps the map and the indices, and the 2049th
key makes the table lose one of the others.
-/

namespace Ktap.User

open Function List

/-! ## Constants -/

/-- The fields of a `FuncState` that constants are kept in. -/
structure FuncState where
  kt : UTab
  nkn : ℕ
  nkgc : ℕ

/-- `const_num(fs, e)`: the constant's index. -/
def constNum (fs : FuncState) (n : Number) : Except Fault (FuncState × ℕ) := do
  let (kt, o) ← kpTabSet fs.kt (.number n)
  if (valAt kt o).isNumber then return ({ fs with kt := kt }, (valAt kt o).word.toNat % 2 ^ 32)
  else
    return ({ fs with kt := setVal kt o (.number (BitVec.ofNat 64 fs.nkn)),
                      nkn := (fs.nkn + 1) % 2 ^ 32 }, fs.nkn)

/-- `const_gc(fs, gc, itype)`. -/
def constGc (fs : FuncState) (gc : BitVec 64) (itype : Itype) : Except Fault (FuncState × ℕ) := do
  let (kt, o) ← kpTabSet fs.kt ⟨itype, gc⟩
  if (valAt kt o).isNumber then return ({ fs with kt := kt }, (valAt kt o).word.toNat % 2 ^ 32)
  else
    return ({ fs with kt := setVal kt o (.number (BitVec.ofNat 64 fs.nkgc)),
                      nkgc := (fs.nkgc + 1) % 2 ^ 32 }, fs.nkgc)

/-- What `kp_parse_keepstr(ls, str, len)` does with the interned string. -/
def kpParseKeepstr (fs : FuncState) (s : BitVec 64) : Except Fault FuncState := do
  let (kt, tv) ← kpTabSet fs.kt (.string s)
  if (valAt kt tv).isNil then return { fs with kt := setVal kt tv ((valAt kt tv).setBool true) }
  else return { fs with kt := kt }

/-! ## Runs of constants -/

/-- A constant of the function that is parsed. -/
inductive Constant where
  | num (n : Number)
  | gc (gc : BitVec 64) (itype : Itype)
  | keepstr (s : BitVec 64)

def Constant.key : Constant → TVal
  | num n => .number n
  | gc w ty => ⟨ty, w⟩
  | keepstr s => .string s

/-- The function that is parsed, and the indices that were given to constants. -/
structure Parse where
  fs : FuncState
  given : List (TVal × ℕ)

def Parse.add (p : Parse) : Constant → Except Fault Parse
  | .num n => do
    let (fs, i) ← constNum p.fs n
    return ⟨fs, (.number n, i) :: p.given⟩
  | .gc w ty => do
    let (fs, i) ← constGc p.fs w ty
    return ⟨fs, (⟨ty, w⟩, i) :: p.given⟩
  | .keepstr s => do
    let fs ← kpParseKeepstr p.fs s
    return { p with fs := fs }

/-- `const_gc` is called with strings and other objects. -/
def Parse.Allowed (_ : Parse) : Constant → Prop
  | .gc w ty => ty = .str ∨ (⟨ty, w⟩ : TVal).IsObject
  | _ => True

def constants (junk : ℕ → BitVec 64 × BitVec 64) : Lib.System Parse Constant Fault where
  init := ⟨⟨kpTabNew junk, 0, 0⟩, []⟩
  Allowed := Parse.Allowed
  step := Parse.add

/-- Two constants that are kept in one array have the same index only if they are the same, and a
constant has one index. -/
def Parse.Distinct (p : Parse) : Prop :=
  ∀ k k' i i', (k, i) ∈ p.given → (k', i') ∈ p.given → k.isNumber = k'.isNumber →
    (k = k' ↔ i = i')

def FuncState.next (fs : FuncState) (k : TVal) : ℕ := if k.isNumber then fs.nkn else fs.nkgc

def UNode.numbered (n : UNode) : Bool := n.inUse && n.val.isNumber

/-- The indices that the slots of a map hold: they are below their counter and no two keys of one
array have the same. -/
structure Numbered (fs : FuncState) (m : Map) : Prop where
  inv : Inv fs.kt m
  below : ∀ k v, m k = some (.stored v) → v.isNumber = true →
    ∃ i, i < fs.next k ∧ v = .number (BitVec.ofNat 64 i)
  inj : ∀ k k' v, m k = some (.stored v) → m k' = some (.stored v) → v.isNumber = true →
    k.isNumber = k'.isNumber → k = k'
  count : fs.nkn + fs.nkgc = fs.kt.node.countP UNode.numbered

theorem Numbered.small {fs : FuncState} {m : Map} (h : Numbered fs m) :
    fs.nkn + fs.nkgc ≤ 2048 := by
  obtain ⟨low, free, high, hp⟩ := h.inv.parts
  rw [h.count]
  exact countP_le_length.trans hp.length_le

section Constants

variable {fs : FuncState} {m : Map} {k : TVal}

def Map.Keeps (m m' : Map) : Prop :=
  ∀ k v, m k = some (.stored v) → v.isNumber = true → m' k = some (.stored v)

theorem Numbered.set (h : Numbered fs m) (hk : k.IsKey) (hf : Fit fs.kt k) :
    ∃ kt o n m', kpTabSet fs.kt k = .ok (kt, o) ∧ Numbered { fs with kt := kt } m' ∧ m.Keeps m' ∧
      kt.node[o]? = some n ∧ n.key = k := by
  cases hm : m k with
  | none =>
    obtain ⟨kt, o, n, hset, hinv, -, ho, hn, hnil, hcount⟩ := h.inv.set_new hk hf hm
    have hold : ∀ {k' v}, update m k (some .fresh) k' = some (.stored v) →
        m k' = some (.stored v) := by
      intro k' v hk'
      rcases eq_or_ne k' k with rfl | hne
      · rw [update_self] at hk'
        cases hk'
      · rw [update_of_ne hne] at hk'
        exact hk'
    refine ⟨kt, o, n, _, hset, ⟨hinv, ?_, ?_, ?_⟩, ?_, ho, hn⟩
    · exact fun k' v hk' hv => h.below k' v (hold hk') hv
    · exact fun k₁ k₂ v h₁ h₂ hv => h.inj k₁ k₂ v (hold h₁) (hold h₂) hv
    · -- the slot of a new key is empty
      have hnum : n.val.isNumber = false := by
        rw [TVal.isNil, beq_iff_eq] at hnil
        rw [TVal.isNumber, hnil]
        rfl
      rw [h.count, hcount UNode.numbered, UNode.numbered, hnum, Bool.and_false]
      · rfl
      · intro n' hn'
        rw [UNode.numbered, hn', Bool.false_and]
    · intro k' v hk' _
      rw [update_of_ne]
      · exact hk'
      · rintro rfl
        rw [hm] at hk'
        cases hk'
  | some s =>
    obtain ⟨o, n, hset, ho, hn, -⟩ := h.inv.set_old hm
    exact ⟨fs.kt, o, n, m, hset, h, fun _ _ h _ => h, ho, hn⟩

def FuncState.give (fs : FuncState) (k : TVal) (o : ℕ) : FuncState where
  kt := setVal fs.kt o (.number (BitVec.ofNat 64 (fs.next k)))
  nkn := if k.isNumber then (fs.nkn + 1) % 2 ^ 32 else fs.nkn
  nkgc := if k.isNumber then fs.nkgc else (fs.nkgc + 1) % 2 ^ 32

/-- What `const_num` and `const_gc` do with a key. -/
def constant (fs : FuncState) (k : TVal) : Except Fault (FuncState × ℕ) := do
  let (kt, o) ← kpTabSet fs.kt k
  if (valAt kt o).isNumber then return ({ fs with kt := kt }, (valAt kt o).word.toNat % 2 ^ 32)
  else return (FuncState.give { fs with kt := kt } k o, fs.next k)

theorem constNum_eq (fs : FuncState) (n : Number) : constNum fs n = constant fs (.number n) := rfl

theorem constGc_eq (fs : FuncState) (w : BitVec 64) {ty : Itype} (h : ty ≠ .num) :
    constGc fs w ty = constant fs ⟨ty, w⟩ := by
  have hnum : TVal.isNumber ⟨ty, w⟩ = false := beq_false_of_ne h
  rw [constGc, constant]
  simp only [FuncState.give, FuncState.next, hnum]
  rfl

theorem FuncState.next_give (fs : FuncState) (k k' : TVal) (o : ℕ)
    (hs : fs.nkn + fs.nkgc ≤ 2048) :
    (fs.give k o).next k' = fs.next k' + (if k.isNumber = k'.isNumber then 1 else 0) := by
  rw [FuncState.next, FuncState.next, FuncState.give]
  cases k.isNumber <;> cases k'.isNumber <;> simp <;> omega

theorem Numbered.give (h : Numbered fs m) {o : ℕ} {n : UNode} (ho : fs.kt.node[o]? = some n)
    (hk : n.key.IsKey) (hv : n.val.isNumber = false) :
    Numbered (fs.give n.key o)
      (update m n.key (some (.stored (.number (BitVec.ofNat 64 (fs.next n.key)))))) := by
  have hsmall := h.small
  have hu := inUse_iff.mpr hk
  have hbelow : ∀ k' v, m k' = some (.stored v) → v.isNumber = true →
      v = .number (BitVec.ofNat 64 (fs.next n.key)) → k'.isNumber = n.key.isNumber → False := by
    intro k' v hk' hv hnext hkind
    obtain ⟨i, hi, rfl⟩ := h.below k' v hk' hv
    have hword := congrArg (fun v => v.word.toNat) hnext
    simp only [TVal.number, BitVec.toNat_ofNat] at hword
    have hsame : fs.next k' = fs.next n.key := by rw [FuncState.next, FuncState.next, hkind]
    have : fs.next n.key ≤ 2048 := by
      rw [FuncState.next]
      split <;> omega
    rw [Nat.mod_eq_of_lt (by omega), Nat.mod_eq_of_lt (by omega)] at hword
    omega
  refine ⟨h.inv.setVal ho hu _, ?_, ?_, ?_⟩
  · intro k' v hk' hv'
    rw [FuncState.next_give _ _ _ _ hsmall]
    rcases eq_or_ne k' n.key with rfl | hne
    · rw [update_self] at hk'
      obtain rfl := Slot.stored.inj (Option.some.inj hk')
      refine ⟨fs.next n.key, ?_, rfl⟩
      rw [if_pos rfl]
      exact Nat.lt_succ_self _
    · rw [update_of_ne hne] at hk'
      obtain ⟨i, hi, rfl⟩ := h.below k' v hk' hv'
      exact ⟨i, Nat.lt_add_right _ hi, rfl⟩
  · intro k₁ k₂ v h₁ h₂ hv' hkind
    rcases eq_or_ne k₁ n.key with rfl | h₁' <;> rcases eq_or_ne k₂ n.key with rfl | h₂'
    · rfl
    · rw [update_self] at h₁
      rw [update_of_ne h₂'] at h₂
      exact (hbelow k₂ v h₂ hv' (Slot.stored.inj (Option.some.inj h₁)).symm hkind.symm).elim
    · rw [update_self] at h₂
      rw [update_of_ne h₁'] at h₁
      exact (hbelow k₁ v h₁ hv' (Slot.stored.inj (Option.some.inj h₂)).symm hkind).elim
    · rw [update_of_ne h₁'] at h₁
      rw [update_of_ne h₂'] at h₂
      exact h.inj k₁ k₂ v h₁ h₂ hv' hkind
  · have hcount := countP_modify ho
      (fun n' => { n' with val := .number (BitVec.ofNat 64 (fs.next n.key)) }) UNode.numbered
    have hold : n.numbered = false := by rw [UNode.numbered, hv, Bool.and_false]
    have hnew : ({ n with val := .number (BitVec.ofNat 64 (fs.next n.key)) } : UNode).numbered
        = true := by
      rw [UNode.numbered, UNode.inUse, decide_eq_true hk]
      rfl
    rw [hold, hnew] at hcount
    have hc := h.count
    show _ = (fs.kt.node.modify o _).countP UNode.numbered
    simp only [FuncState.give]
    split <;> simp at hcount ⊢ <;> omega

/-- **The step lemma** of `const_num` and `const_gc`: the constant has the index that its slot
then holds. -/
theorem Numbered.constant (h : Numbered fs m) (hk : k.IsKey) (hf : Fit fs.kt k) :
    ∃ fs' i m', User.constant fs k = .ok (fs', i) ∧ Numbered fs' m' ∧ m.Keeps m' ∧
      m' k = some (.stored (.number (BitVec.ofNat 64 i))) ∧ i < 2 ^ 32 := by
  obtain ⟨kt, o, n, m', hset, hm', hkeeps, ho, rfl⟩ := h.set hk hf
  have hval : valAt kt o = n.val := valAt_eq ho
  have hnext : ∀ {fs : FuncState} {m k}, Numbered fs m → fs.next k ≤ 2048 := by
    intro fs m k h
    have := h.small
    rw [FuncState.next]
    split <;> omega
  cases hv : n.val.isNumber with
  | true =>
    obtain ⟨s, hs, hholds⟩ := hm'.inv.holds n (mem_of_getElem? ho) (inUse_iff.mpr hk)
    cases s with
    | fresh =>
      rw [Slot.Holds, TVal.isNil, beq_iff_eq] at hholds
      rw [TVal.isNumber, hholds] at hv
      cases hv
    | stored v =>
      obtain rfl : n.val = v := hholds
      obtain ⟨i, hi, hvi⟩ := hm'.below n.key n.val hs hv
      have := hnext (k := n.key) hm'
      refine ⟨_, i, m', ?_, hm', hkeeps, hvi ▸ hs, by omega⟩
      rw [User.constant, hset]
      show (if (valAt kt o).isNumber then _ else _) = _
      rw [hval, hv, if_pos rfl, hvi, TVal.number, BitVec.toNat_ofNat, Nat.mod_eq_of_lt (by omega),
        Nat.mod_eq_of_lt (by omega)]
      rfl
  | false =>
    have := hnext (k := n.key) h
    refine ⟨_, fs.next n.key, _, ?_, hm'.give ho hk hv, ?_, update_self _ _ _, by omega⟩
    · rw [User.constant, hset]
      show (if (valAt kt o).isNumber then _ else _) = _
      rw [hval, hv, if_neg Bool.false_ne_true]
      rfl
    · intro k' v hk' hv'
      rw [update_of_ne]
      · exact hkeeps k' v hk' hv'
      · -- the slot of the key holds no number
        rintro rfl
        obtain ⟨s, hs, hholds⟩ := hm'.inv.holds n (mem_of_getElem? ho) (inUse_iff.mpr hk)
        obtain rfl := Option.some.inj (hs.symm.trans (hkeeps _ v hk' hv'))
        rw [show n.val = v from hholds, hv'] at hv
        cases hv

theorem Numbered.mark (h : Numbered fs m) {o : ℕ} {n : UNode} (ho : fs.kt.node[o]? = some n)
    (hk : n.key.IsKey) (hv : n.val.isNumber = false) {v : TVal} (hv' : v.isNumber = false) :
    Numbered { fs with kt := setVal fs.kt o v } (update m n.key (some (.stored v))) := by
  have hold : ∀ {k' u}, update m n.key (some (.stored v)) k' = some (.stored u) →
      u.isNumber = true → m k' = some (.stored u) := by
    intro k' u hk' hu
    rcases eq_or_ne k' n.key with rfl | hne
    · rw [update_self] at hk'
      obtain rfl := Slot.stored.inj (Option.some.inj hk')
      rw [hu] at hv'
      cases hv'
    · rw [update_of_ne hne] at hk'
      exact hk'
  refine ⟨h.inv.setVal ho (inUse_iff.mpr hk) v, ?_, ?_, ?_⟩
  · exact fun k' u hk' hu => h.below k' u (hold hk' hu) hu
  · exact fun k₁ k₂ u h₁ h₂ hu => h.inj k₁ k₂ u (hold h₁ hu) (hold h₂ hu) hu
  · have hcount := countP_modify ho (fun n' => { n' with val := v }) UNode.numbered
    simp only [UNode.numbered, hv, hv', Bool.and_false] at hcount
    exact h.count.trans hcount.symm

theorem Numbered.keepstr (h : Numbered fs m) {s : BitVec 64} (hf : Fit fs.kt (.string s)) :
    ∃ fs' m', kpParseKeepstr fs s = .ok fs' ∧ Numbered fs' m' ∧ m.Keeps m' := by
  obtain ⟨kt, o, n, m', hset, hm', hkeeps, ho, hn⟩ := h.set (TVal.string_isKey s) hf
  have hk : n.key.IsKey := hn ▸ TVal.string_isKey s
  have hval : valAt kt o = n.val := valAt_eq ho
  cases hnil : n.val.isNil with
  | false =>
    refine ⟨_, m', ?_, hm', hkeeps⟩
    rw [kpParseKeepstr, hset]
    show (if (valAt kt o).isNil then _ else _) = _
    rw [hval, hnil, if_neg Bool.false_ne_true]
    rfl
  | true =>
    have hv : n.val.isNumber = false := by
      rw [TVal.isNil, beq_iff_eq] at hnil
      rw [TVal.isNumber, hnil]
      rfl
    refine ⟨_, _, ?_, hm'.mark ho hk hv (v := n.val.setBool true) rfl, ?_⟩
    · rw [kpParseKeepstr, hset]
      show (if (valAt kt o).isNil then _ else _) = _
      rw [hval, hnil, if_pos rfl]
      rfl
    · intro k' u hk' hu
      rw [update_of_ne]
      · exact hkeeps k' u hk' hu
      · rintro rfl
        obtain ⟨s, hs, hholds⟩ := hm'.inv.holds n (mem_of_getElem? ho) (inUse_iff.mpr hk)
        obtain rfl := Option.some.inj (hs.symm.trans (hkeeps _ u hk' hu))
        rw [show n.val = u from hholds, hu] at hv
        cases hv

def Parse.Fits (p : Parse) (c : Constant) : Prop := Fit p.fs.kt c.key

/-- The invariant of runs: the indices that were given are those that the slots hold. -/
def Parse.Good (p : Parse) : Prop :=
  ∃ m, Numbered p.fs m ∧
    ∀ k i, (k, i) ∈ p.given → m k = some (.stored (.number (BitVec.ofNat 64 i))) ∧ i < 2 ^ 32

theorem Parse.Good.add {p : Parse} (h : p.Good) {c : Constant} (ha : p.Allowed c) (hf : p.Fits c) :
    ∃ p', p.add c = .ok p' ∧ p'.Good := by
  obtain ⟨m, hm, hgiven⟩ := h
  have hstep : ∀ k, k.IsKey → Fit p.fs.kt k → ∃ fs' i, constant p.fs k = .ok (fs', i) ∧
      Parse.Good ⟨fs', (k, i) :: p.given⟩ := by
    intro k hk hf
    obtain ⟨fs', i, m', hconst, hm', hkeeps, hki, hi⟩ := hm.constant hk hf
    refine ⟨fs', i, hconst, m', hm', ?_⟩
    intro k' i' hmem
    rcases mem_cons.mp hmem with heq | hmem
    · cases heq
      exact ⟨hki, hi⟩
    · obtain ⟨hk', hi'⟩ := hgiven k' i' hmem
      exact ⟨hkeeps k' _ hk' rfl, hi'⟩
  cases c with
  | num n =>
    obtain ⟨fs', i, hconst, hgood⟩ := hstep _ (TVal.number_isKey n) hf
    refine ⟨_, ?_, hgood⟩
    rw [Parse.add, constNum_eq, hconst]
    rfl
  | gc w ty =>
    have hk : (⟨ty, w⟩ : TVal).IsKey := .inr ha
    have hty : ty ≠ .num := by
      rintro rfl
      rcases ha with h | h
      · cases h
      · exact h.elim
    obtain ⟨fs', i, hconst, hgood⟩ := hstep _ hk hf
    refine ⟨_, ?_, hgood⟩
    rw [Parse.add, constGc_eq _ _ hty, hconst]
    rfl
  | keepstr s =>
    obtain ⟨fs', m', hkeep, hm', hkeeps⟩ := hm.keepstr hf
    refine ⟨{ p with fs := fs' }, ?_, m', hm', ?_⟩
    · rw [Parse.add, hkeep]
      rfl
    · intro k i hmem
      obtain ⟨hk, hi⟩ := hgiven k i hmem
      exact ⟨hkeeps k _ hk rfl, hi⟩

theorem Parse.Good.distinct {p : Parse} (h : p.Good) : p.Distinct := by
  obtain ⟨m, hm, hgiven⟩ := h
  intro k k' i i' hk hk' hkind
  obtain ⟨hmk, hi⟩ := hgiven k i hk
  obtain ⟨hmk', hi'⟩ := hgiven k' i' hk'
  constructor
  · rintro rfl
    have heq := Slot.stored.inj (Option.some.inj (hmk.symm.trans hmk'))
    have hword := congrArg (fun v => v.word.toNat) heq
    simp only [TVal.number, BitVec.toNat_ofNat] at hword
    omega
  · rintro rfl
    exact hm.inj k k' _ hmk hmk' rfl hkind

theorem Parse.good_of_reach {junk : ℕ → BitVec 64 × BitVec 64} {p : Parse}
    (h : (constants junk).Reach Parse.Fits p) : p.Good := by
  apply h.invariant
  · refine ⟨fun _ => none, ⟨kpTabNew_inv junk, ?_, ?_, ?_⟩, ?_⟩
    · intro k v hk
      cases hk
    · intro k k' v hk
      cases hk
    · show 0 = _
      rw [eq_comm, countP_eq_zero]
      intro n hn
      rw [UNode.numbered, kpTabNew_blank n hn]
      exact Bool.false_ne_true
    · intro k i hki
      cases hki
  · intro p c p' hp ha hf hstep
    obtain ⟨p'', hadd, hp''⟩ := hp.add ha hf
    obtain rfl := Except.ok.inj (hadd.symm.trans hstep)
    exact hp''

end Constants

/-! ## The map, and the key that is lost -/

/-- **The table is a finite map** in every run whose keys fit, and the indices of constants are as
distinct as the constants; no call of such a run goes wrong. -/
theorem user_table_finite_map (junk : ℕ → BitVec 64 × BitVec 64) :
    (∀ w, (calls junk).Reach World.Fits w → w.FiniteMap ∧
      (∀ a, w.Allowed a → w.Fits a → ∃ w', w.call a = .ok w') ∧
      ∀ ts, kpTabGetstr w.tab ts = kpTabGet w.tab (.string ts)) ∧
    (∀ p, (constants junk).Reach Parse.Fits p → p.Distinct ∧
      ∀ c, p.Allowed c → p.Fits c → ∃ p', p.add c = .ok p') := by
  refine ⟨?_, ?_⟩
  · intro w h
    have hgood := good_of_reach h
    refine ⟨hgood.finiteMap, ?_, kpTabGetstr_eq w.tab⟩
    intro a ha hf
    obtain ⟨w', hcall, -⟩ := hgood.call ha hf
    exact ⟨w', hcall⟩
  · intro p h
    have hgood := Parse.good_of_reach h
    refine ⟨hgood.distinct, ?_⟩
    intro c ha hf
    obtain ⟨p', hadd, -⟩ := hgood.add ha hf
    exact ⟨p', hadd⟩

theorem Inv.lost {t : UTab} {m : Map} {k : TVal} (h : Inv t m) (hfull : held t = maxKeys)
    (hk : k.IsKey) (hc : Clear t k) (hm : m k = none) :
    ∃ t' i k' s, kpTabSet t k = .ok (t', i) ∧ m k' = some s ∧ kpTabGet t' k' = none := by
  obtain ⟨low, free, high, hp⟩ := h.parts
  have hheld := hp.held_eq
  have hhalf := hp.half
  have hl := hp.lowLength
  have hf := hp.freetop
  rw [maxKeys] at hfull
  have h0 : t.freetop ≠ 0 := by omega
  -- the node below the pointer is the last one of the first half
  obtain ⟨x, hx⟩ : ∃ x, low[t.freetop - 1]? = some x := by
    have hlt : t.freetop - 1 < low.length := by omega
    exact ⟨_, getElem?_eq_getElem hlt⟩
  have hu : x.inUse = true := hp.lowInUse x (mem_of_getElem? hx)
  have hx' : t.node[t.freetop - 1]? = some x := by
    rw [hp.node, getElem?_append_left]
    · exact hx
    · exact (List.getElem?_eq_some_iff.mp hx).1
  have hnew := h.not_mem hk hm
  obtain ⟨s, hs, -⟩ := h.holds x (mem_of_getElem? hx') hu
  refine ⟨User.addNode t k TVal.setNil, t.freetop - 1, x.key, s, ?_, hs, ?_⟩
  · rw [kpTabSet, h.get_none hk hc hm]
    simp only [User.grow, if_neg h0]
    rfl
  · rw [kpTabGet_eq_none (inUse_iff.mp hu)]
    · intro n hn hkey
      obtain ⟨j, hj⟩ := mem_iff_getElem?.mp hn
      rcases getElem?_modify_cases hx' hj with ⟨-, rfl⟩ | ⟨hne, hj⟩
      · exact hnew x (mem_of_getElem? hx') hkey.symm
      · exact hne (h.inj _ _ x n hx' hj hu hkey.symm).symm
    · intro n hn hw
      rcases mem_modify hx' hn with hn | rfl
      · exact h.clear _ s hs n hn hw
      · rcases hc x (mem_of_getElem? hx') hw.symm with h' | ⟨h₁, h₂⟩
        · exact .inl h'.symm
        · exact .inr ⟨h₂, h₁⟩

/-- The numbers below `n`, one after the other. -/
def numbers (n : ℕ) : List Call := (List.range n).map fun i => .set (.number (BitVec.ofNat 64 i))

instance (w : World) (a : Call) : Decidable (w.Allowed a) := by
  cases a <;> unfold World.Allowed <;> infer_instance

instance (w : World) (a : Call) : Decidable (w.Fits a) := by
  cases a <;> unfold World.Fits <;> infer_instance

instance (junk : ℕ → BitVec 64 × BitVec 64) (w : World) (a : Call) :
    Decidable ((calls junk).Allowed w a) := inferInstanceAs (Decidable (w.Allowed a))

/-- The keys of the map are the numbers below `n`. -/
def World.OnlyNumbers (w : World) (n : ℕ) : Prop :=
  ∀ k, (w.map k).isSome = true ↔ ∃ i < n, k = .number (BitVec.ofNat 64 i)

theorem World.OnlyNumbers.fresh {w : World} {n : ℕ} (h : w.OnlyNumbers n) (hn : n < 2 ^ 64) :
    w.map (.number (BitVec.ofNat 64 n)) = none := by
  rw [← Option.not_isSome_iff_eq_none, h]
  rintro ⟨i, hi, heq⟩
  have hword := congrArg (fun v => v.word.toNat) heq
  simp only [TVal.number, BitVec.toNat_ofNat] at hword
  omega

theorem World.OnlyNumbers.clear {w : World} {n : ℕ} (h : w.OnlyNumbers n) (hw : w.Good)
    (x : Number) : Clear w.tab (.number x) := by
  intro node hnode _
  refine .inr ⟨id, ?_⟩
  cases hu : node.inUse with
  | false =>
    intro hobj
    rw [inUse_iff.mpr (.inr (.inr hobj))] at hu
    cases hu
  | true =>
    obtain ⟨s, hs, -⟩ := hw.inv.holds node hnode hu
    obtain ⟨i, -, hi⟩ := (h node.key).mp (Option.isSome_iff_exists.mpr ⟨s, hs⟩)
    rw [hi]
    exact id

theorem numbers_succ (n : ℕ) :
    numbers (n + 1) = numbers n ++ [.set (.number (BitVec.ofNat 64 n))] := by
  rw [numbers, range_succ, map_append]
  rfl

theorem numbers_run (junk : ℕ → BitVec 64 × BitVec 64) {n : ℕ} (hn : n ≤ maxKeys) :
    ∃ w, (calls junk).run World.Fits (numbers n) (calls junk).init = some w ∧ w.Good ∧
      w.OnlyNumbers n ∧ held w.tab = n := by
  induction n with
  | zero =>
    refine ⟨(calls junk).init, rfl, good_of_reach .init, ?_, ?_⟩
    · intro k
      constructor
      · intro h
        cases h
      · rintro ⟨i, hi, -⟩
        omega
    · rw [held, countP_eq_zero]
      intro x hx
      rw [kpTabNew_blank x hx]
      exact Bool.false_ne_true
  | succ n ih =>
    obtain ⟨w, hrun, hgood, honly, hheld⟩ := ih (Nat.le_of_succ_le hn)
    rw [maxKeys] at hn
    have hm := honly.fresh (by omega)
    have hfit : Fit w.tab (.number (BitVec.ofNat 64 n)) := by
      refine ⟨honly.clear hgood _, fun _ => ?_⟩
      rw [hheld, maxKeys]
      omega
    obtain ⟨t', i, node, hset, -, -, -, hkey, -, hcount⟩ :=
      hgood.inv.set_new (TVal.number_isKey _) hfit hm
    have hcall := World.call_set_new hset hm
    obtain ⟨w', hcall', hgood'⟩ := hgood.call (a := .set (.number (BitVec.ofNat 64 n)))
      (TVal.number_isKey _) hfit
    obtain rfl := Except.ok.inj (hcall'.symm.trans hcall)
    refine ⟨_, ?_, hgood', ?_, ?_⟩
    · rw [numbers_succ]
      exact Lib.System.run_concat hrun (TVal.number_isKey _) hfit hcall
    · intro k
      show (update w.map _ _ k).isSome = true ↔ _
      rcases eq_or_ne k (.number (BitVec.ofNat 64 n)) with rfl | hne
      · rw [update_self]
        exact ⟨fun _ => ⟨n, Nat.lt_succ_self n, rfl⟩, fun _ => rfl⟩
      · rw [update_of_ne hne, honly]
        constructor
        · rintro ⟨i, hi, hki⟩
          exact ⟨i, Nat.lt_succ_of_lt hi, hki⟩
        · rintro ⟨i, hi, rfl⟩
          refine ⟨i, ?_, rfl⟩
          rcases Nat.lt_succ_iff_lt_or_eq.mp hi with hi | rfl
          · exact hi
          · exact absurd rfl hne
    · have hin : node.inUse = true := inUse_iff.mpr (hkey ▸ TVal.number_isKey _)
      show t'.node.countP UNode.inUse = n + 1
      rw [hcount _ fun _ h => h, hin, if_pos rfl]
      exact congrArg (· + 1) hheld

/-- With 2048 numbers set the table has been doubled once and is a map. -/
theorem user_table_finite_map_numbers :
    ∃ w, (calls fun _ => (0, 0)).Reach World.Fits w ∧ held w.tab = 2048 ∧ w.FiniteMap := by
  obtain ⟨w, hrun, -, -, hheld⟩ := numbers_run (fun _ => (0, 0)) (Nat.le_refl _)
  have hreach := Lib.System.Reach.run .init hrun
  exact ⟨w, hreach, hheld, ((user_table_finite_map fun _ => (0, 0)).1 w hreach).1⟩

/-- With the number 2048 set as well one of the 2049 keys is no longer found: the table is no map.
-/
theorem user_table_loses_key :
    ∃ w, (calls fun _ => (0, 0)).run (fun _ _ => True) (numbers 2049)
      (calls fun _ => (0, 0)).init = some w ∧ ¬ w.FiniteMap := by
  obtain ⟨w, hrun, hgood, honly, hheld⟩ := numbers_run (fun _ => (0, 0)) (Nat.le_refl _)
  have hm := honly.fresh (by decide)
  obtain ⟨t', i, k, s, hset, hk, hget⟩ :=
    hgood.inv.lost hheld (TVal.number_isKey _) (honly.clear hgood _) hm
  have hne : k ≠ .number (BitVec.ofNat 64 maxKeys) := by
    rintro rfl
    rw [hm] at hk
    cases hk
  have hcall := World.call_set_new hset hm
  refine ⟨⟨t', Function.update w.map (.number (BitVec.ofNat 64 maxKeys)) (some .fresh),
    (.number (BitVec.ofNat 64 maxKeys), i) :: w.slotsFor t'⟩, ?_, ?_⟩
  · rw [show numbers 2049 = _ from numbers_succ maxKeys]
    exact Lib.System.run_concat (Lib.System.run_mono (fun _ _ _ => trivial) hrun)
      (TVal.number_isKey _) trivial hcall
  · intro hmap
    obtain ⟨i, hi, -⟩ := hmap.found k s ((Function.update_of_ne hne _ _).trans hk)
    rw [hget] at hi
    cases hi

end Ktap.User
