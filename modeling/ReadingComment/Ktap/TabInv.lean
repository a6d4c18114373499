import ReadingComment.Ktap.Tab
import ReadingComment.Lib.Scatter

/-!
# The invariant of the hash part

The node array of a table, seen node by node (`Tab.view`), is a chained scatter
table. `Tab.Inv` says so and adds what the array representation needs; the
lemmas below say what each piece of `kp_tab_newkey` does to the view, and from
them `kpTabNewkey_spec` says what an insertion does.
-/

namespace Ktap

open Chain Function List

section

variable {σ : Type}

namespace Tab

/-- The key of node `i`. -/
def keyAt (t : Tab σ) (i : ℕ) : Val σ :=
  match t.node[i]? with
  | some n => n.key
  | none => .nil

/-- The value of node `i`. -/
def valAt (t : Tab σ) (i : ℕ) : Val σ :=
  match t.node[i]? with
  | some n => n.val
  | none => .nil

/-- The link of node `i`. -/
def nextAt (t : Tab σ) (i : ℕ) : Option ℕ :=
  match t.node[i]? with
  | some n => n.next
  | none => none

def view (t : Tab σ) : Scatter.State (Val σ) (Val σ) := ⟨t.keyAt, t.valAt, t.nextAt⟩

theorem nodeAt_eq (t : Tab σ) {i : ℕ} (hi : i < t.node.length) :
    t.nodeAt i = .ok ⟨t.valAt i, t.keyAt i, t.nextAt i⟩ := by
  have h : t.node[i]? = some t.node[i] := getElem?_eq_getElem hi
  simp only [nodeAt, keyAt, valAt, nextAt, h]

@[simp] theorem length_setNode (t : Tab σ) (i : ℕ) (n : Node σ) :
    (t.setNode i n).node.length = t.node.length := by
  simp [setNode]

variable {t : Tab σ} {i : ℕ} {n : Node σ}

theorem getElem?_setNode (hi : i < t.node.length) (j : ℕ) :
    (t.setNode i n).node[j]? = if j = i then some n else t.node[j]? := by
  rw [setNode, getElem?_set]
  by_cases hij : i = j
  · subst hij
    simp [hi]
  · rw [if_neg hij, if_neg (Ne.symm hij)]

theorem keyAt_setNode (hi : i < t.node.length) :
    (t.setNode i n).keyAt = update t.keyAt i n.key := by
  funext j
  rw [keyAt, getElem?_setNode hi, update_apply]
  split_ifs <;> rfl

theorem valAt_setNode (hi : i < t.node.length) :
    (t.setNode i n).valAt = update t.valAt i n.val := by
  funext j
  rw [valAt, getElem?_setNode hi, update_apply]
  split_ifs <;> rfl

theorem nextAt_setNode (hi : i < t.node.length) :
    (t.setNode i n).nextAt = update t.nextAt i n.next := by
  funext j
  rw [nextAt, getElem?_setNode hi, update_apply]
  split_ifs <;> rfl

end Tab

end

variable {σ : Type} [DecidableEq σ] [StrObj σ]

omit [DecidableEq σ] in
theorem hashkey_congr {t t' : Tab σ} (h : t'.hmask = t.hmask) : hashkey t' = hashkey t := by
  funext k
  cases k <;> simp [hashkey, hashstr, hashnum, hashgcref, hashmask, h]

/-- The invariant of a table with a hash part. -/
structure Tab.Inv (t : Tab σ) : Prop where
  size : t.node.length = t.hmask.toNat + 1
  mask_pos : 0 < t.hmask.toNat
  asize_lt : t.array.length < 2 ^ 32
  /-- stored keys are of a kind that is stored under its own identity -/
  isKey : ∀ i, t.keyAt i ≠ .nil → (t.keyAt i).IsKey
  scatter : Scatter.Inv Val.nil Val.nil (hashkey t) t.node.length t.view t.freetop

namespace Tab

variable {t : Tab σ}

omit [DecidableEq σ] in
theorem Inv.hashkey_lt (h : t.Inv) (k : Val σ) : hashkey t k < t.node.length := by
  have hmask : ∀ x, hashmask t x < t.node.length := by
    intro x
    have := Nat.and_le_right (n := x.toNat) (m := t.hmask.toNat)
    rw [hashmask, BitVec.toNat_and, h.size]
    omega
  cases k <;> exact hmask _

/-! ## Walks -/

omit [DecidableEq σ] [StrObj σ] in
theorem chainFind_eq {p : Val σ → Bool} {a : ℕ} {l : List ℕ} (hc : ChainOf t.nextAt a l)
    (hl : ∀ x ∈ l, x < t.node.length) {fuel : ℕ} (hf : l.length ≤ fuel) :
    chainFind t p fuel a = .ok (l.find? fun i => p (t.keyAt i)) := by
  induction hc generalizing fuel with
  | @last a hn =>
    obtain ⟨m, rfl⟩ : ∃ m, fuel = m + 1 := ⟨fuel - 1, by simp at hf; omega⟩
    rw [chainFind, t.nodeAt_eq (hl a (mem_singleton_self a))]
    by_cases hp : p (t.keyAt a) = true
    · simp [hp, List.find?, bind, Except.bind, pure, Except.pure]
    · simp [hp, hn, List.find?, bind, Except.bind, pure, Except.pure]
  | @cons a b l hn hc ih =>
    obtain ⟨m, rfl⟩ : ∃ m, fuel = m + 1 := ⟨fuel - 1, by simp at hf; omega⟩
    have hrec := @ih (fun x hx => hl x (mem_cons_of_mem _ hx)) m (by simp at hf; omega)
    rw [chainFind, t.nodeAt_eq (hl a (mem_cons_self ..))]
    by_cases hp : p (t.keyAt a) = true
    · simp [hp, List.find?, bind, Except.bind, pure, Except.pure]
    · simpa [hp, hn, List.find?, bind, Except.bind, pure, Except.pure] using hrec

variable {k : Val σ}

omit [DecidableEq σ] in
theorem Inv.walk_spec (h : t.Inv) (hk : k ≠ .nil) {p : Val σ → Bool}
    (hp : ∀ x, p x = true ↔ x = k) :
    (∃ i, t.keyAt i = k ∧ walk t p (hashkey t k) = .ok (some i)) ∨
      ((∀ i, t.keyAt i ≠ k) ∧ walk t p (hashkey t k) = .ok none) := by
  obtain ⟨l, hc, hl, hlen⟩ := h.scatter.chain (h.hashkey_lt k)
  rw [walk, chainFind_eq hc hl (by omega)]
  rcases hfind : l.find? (fun i => p (t.keyAt i)) with _ | i
  · refine .inr ⟨fun i hi => ?_, rfl⟩
    have hreach := h.scatter.reach i (show t.keyAt i ≠ .nil by rw [hi]; exact hk)
    have hmem : i ∈ l := hc.mem_iff.mpr (by
      have : hashkey t (t.keyAt i) = hashkey t k := by rw [hi]
      rw [← this]
      exact hreach)
    have := find?_eq_none.mp hfind i hmem
    exact this ((hp _).mpr hi)
  · exact .inl ⟨i, (hp _).mp (by simpa using find?_some hfind), rfl⟩

/-! ## The value stored under a key -/

/-- What the hash part holds under a key, nil when it holds nothing. -/
def lookup (t : Tab σ) (k : Val σ) : Val σ :=
  match t.node.find? fun n => decide (n.key = k) with
  | some n => n.val
  | none => .nil

theorem Inv.lookup_eq (h : t.Inv) {i : ℕ} (hk : k ≠ .nil) (hi : t.keyAt i = k) :
    t.lookup k = t.valAt i := by
  have hlt : i < t.node.length := h.scatter.key_lt i (show t.keyAt i ≠ .nil by rw [hi]; exact hk)
  have hget : t.node[i]? = some t.node[i] := getElem?_eq_getElem hlt
  rcases hfind : t.node.find? (fun n => decide (n.key = k)) with _ | n
  · have := find?_eq_none.mp hfind t.node[i] (getElem_mem hlt)
    have hkey : t.node[i].key = k := by simpa [keyAt, hget] using hi
    exact absurd hkey (by simpa using this)
  · have hn : n.key = k := by simpa using find?_some hfind
    obtain ⟨j, hj⟩ := mem_iff_getElem?.mp (mem_of_find?_eq_some hfind)
    have hkj : t.keyAt j = k := by simp [keyAt, hj, hn]
    obtain rfl : i = j := h.scatter.uniq i j (show t.keyAt i ≠ .nil by rw [hi]; exact hk)
      (hi.trans hkj.symm)
    simp [lookup, hfind, valAt, hj]

omit [StrObj σ] in
theorem lookup_eq_nil (hk : ∀ i, t.keyAt i ≠ k) : t.lookup k = .nil := by
  rcases hfind : t.node.find? (fun n => decide (n.key = k)) with _ | n
  · simp [lookup, hfind]
  · have hn : n.key = k := by simpa using find?_some hfind
    obtain ⟨j, hj⟩ := mem_iff_getElem?.mp (mem_of_find?_eq_some hfind)
    exact absurd (by simp [keyAt, hj, hn] : t.keyAt j = k) (hk j)

theorem Inv.lookup_iff (h : t.Inv) {k v : Val σ} (hk : k ≠ .nil) (hv : v ≠ .nil) :
    t.lookup k = v ↔ t.view.Holds k v := by
  constructor
  · intro hlook
    by_cases hex : ∃ i, t.keyAt i = k
    · obtain ⟨i, hi⟩ := hex
      exact ⟨i, hi, by rw [← hlook, h.lookup_eq hk hi]; rfl⟩
    · rw [lookup_eq_nil fun i hi => hex ⟨i, hi⟩] at hlook
      exact absurd hlook.symm hv
  · rintro ⟨i, hi, hiv⟩
    rw [h.lookup_eq hk hi]
    exact hiv

theorem Inv.lookup_congr {t' : Tab σ} (h : t.Inv) (h' : t'.Inv) (hk : k ≠ .nil)
    (hiff : ∀ v, v ≠ .nil → (t'.view.Holds k v ↔ t.view.Holds k v)) :
    t'.lookup k = t.lookup k := by
  by_cases hv' : t'.lookup k = .nil
  · by_cases hv : t.lookup k = .nil
    · rw [hv, hv']
    · have := (h.lookup_iff hk hv).mp rfl
      exact (h'.lookup_iff hk hv).mpr ((hiff _ hv).mpr this)
  · have := (h'.lookup_iff hk hv').mp rfl
    exact ((h.lookup_iff hk hv').mpr ((hiff _ hv').mp this)).symm

end Tab

/-! ## The pieces of an insertion -/

section pieces

variable {t : Tab σ}

omit [DecidableEq σ] [StrObj σ] in
theorem findFree_spec {f : ℕ} (hf : f ≤ t.node.length) :
    (findFree t f = .ok none ∧ ∀ i, i < f → t.keyAt i ≠ .nil) ∨
      ∃ i, findFree t f = .ok (some i) ∧ i < f ∧ t.keyAt i = .nil ∧
        ∀ j, i < j → j < f → t.keyAt j ≠ .nil := by
  induction f with
  | zero => exact .inl ⟨rfl, fun i hi => absurd hi (by omega)⟩
  | succ f ih =>
    rw [findFree, t.nodeAt_eq (by omega)]
    by_cases hnil : t.keyAt f = .nil
    · exact .inr ⟨f, by simp [hnil, Val.isNil, bind, Except.bind, pure, Except.pure], by omega,
        hnil, fun j hj hj' => by omega⟩
    · have hstep : (do
          let n ← (Except.ok ⟨t.valAt f, t.keyAt f, t.nextAt f⟩ : Except Fault (Node σ))
          if n.key.isNil then return some f else findFree t f) = findFree t f := by
        have : (t.keyAt f).isNil = false := (Val.isNil_eq_false_iff _).mpr hnil
        simp [this, bind, Except.bind]
      rw [hstep]
      rcases ih (by omega) with ⟨he, hall⟩ | ⟨i, he, hi, hin, hbetween⟩
      · refine .inl ⟨he, fun i hi => ?_⟩
        rcases Nat.lt_succ_iff_lt_or_eq.mp hi with hlt | rfl
        · exact hall i hlt
        · exact hnil
      · refine .inr ⟨i, he, by omega, hin, fun j hj hj' => ?_⟩
        rcases Nat.lt_succ_iff_lt_or_eq.mp hj' with hlt | rfl
        · exact hbetween j hj hlt
        · exact hnil

omit [DecidableEq σ] [StrObj σ] in
theorem findPred_spec {c n : ℕ} {l : List ℕ} (hc : ChainOf t.nextAt c l)
    (hl : ∀ x ∈ l, x < t.node.length) (hn : n ∈ l) (hcn : c ≠ n) {fuel : ℕ}
    (hf : l.length ≤ fuel) :
    ∃ p, findPred t n fuel c = .ok p ∧ t.nextAt p = some n ∧ p < t.node.length := by
  induction hc generalizing fuel with
  | @last c hnone =>
    obtain rfl := mem_singleton.mp hn
    exact absurd rfl hcn
  | @cons c b l hs hc ih =>
    obtain ⟨m, rfl⟩ : ∃ m, fuel = m + 1 := ⟨fuel - 1, by simp at hf; omega⟩
    have hclt := hl c (mem_cons_self ..)
    rw [findPred, t.nodeAt_eq hclt]
    by_cases hbn : b = n
    · subst hbn
      exact ⟨c, by simp [hs, bind, Except.bind, pure, Except.pure], hs, hclt⟩
    · have hnl : n ∈ l := by
        rcases mem_cons.mp hn with rfl | hnl
        · exact absurd rfl hcn
        · exact hnl
      obtain ⟨p, hp, hpn, hplt⟩ := @ih (fun x hx => hl x (mem_cons_of_mem _ hx)) hnl hbn m
        (by simp at hf; omega)
      exact ⟨p, by simpa [hs, hbn, bind, Except.bind] using hp, hpn, hplt⟩

omit [DecidableEq σ] in
theorem rechain_eq {n a : ℕ} {l : List ℕ} (hc : ChainOf t.nextAt a l)
    (hl : ∀ x ∈ l, x < t.node.length)
    (hno : ∀ x ∈ l, t.keyAt x ≠ .nil → x ≠ a → hashkey t (t.keyAt x) ≠ n) {fuel : ℕ}
    (hf : l.length ≤ fuel) : rechain n fuel t a = .ok t := by
  induction hc generalizing fuel with
  | @last a hn =>
    obtain ⟨m, rfl⟩ : ∃ m, fuel = m + 1 := ⟨fuel - 1, by simp at hf; omega⟩
    rw [rechain, t.nodeAt_eq (hl a (mem_singleton_self a))]
    simp [hn, bind, Except.bind, pure, Except.pure]
  | @cons a b l hs hc ih =>
    obtain ⟨m, rfl⟩ : ∃ m, fuel = m + 1 := ⟨fuel - 1, by simp at hf; omega⟩
    have hnd := (ChainOf.cons hs hc).nodup
    have hba : b ≠ a := fun hba => (nodup_cons.mp hnd).1 (hba ▸ hc.head_mem)
    have hblt := hl b (mem_cons_of_mem _ hc.head_mem)
    have hrec := @ih (fun x hx => hl x (mem_cons_of_mem _ hx))
      (fun x hx hx' hxb => hno x (mem_cons_of_mem _ hx) hx'
        fun hxa => (nodup_cons.mp hnd).1 (hxa ▸ hx)) m (by simp at hf; omega)
    have hbn := hno b (mem_cons_of_mem _ hc.head_mem)
    rw [rechain, t.nodeAt_eq (hl a (mem_cons_self ..))]
    simp only [hs, bind, Except.bind]
    rw [t.nodeAt_eq hblt]
    -- only a string key can be taken out, and this one hashes elsewhere
    rcases hkey : t.keyAt b with _ | _ | _ | s | _ | _ | _
    case str =>
      have hh : hashstr t s ≠ n := by
        have := hbn (by rw [hkey]; simp) hba
        rwa [hkey] at this
      simpa [hh] using hrec
    all_goals exact hrec

omit [DecidableEq σ] [StrObj σ] in
theorem placeKey_eq {n : ℕ} (hn : n < t.node.length) (key : Val σ) :
    ∃ t', placeKey t key n = .ok (t', .node n) ∧ t'.view = t.view.place n key ∧
      t'.array = t.array ∧ t'.hmask = t.hmask ∧ t'.freetop = t.freetop ∧
      t'.node.length = t.node.length := by
  refine ⟨{ t.setNode n ⟨t.valAt n, key, t.nextAt n⟩ with hnum := t.hnum + 1 }, ?_, ?_,
    rfl, rfl, rfl, t.length_setNode n _⟩
  · rw [placeKey, t.nodeAt_eq hn]
    rfl
  · have hk := Tab.keyAt_setNode (t := t) (n := ⟨t.valAt n, key, t.nextAt n⟩) hn
    have hv := Tab.valAt_setNode (t := t) (n := ⟨t.valAt n, key, t.nextAt n⟩) hn
    have hx := Tab.nextAt_setNode (t := t) (n := ⟨t.valAt n, key, t.nextAt n⟩) hn
    rw [update_eq_self] at hv hx
    exact congr (congr (congrArg _ hk) hv) hx

omit [DecidableEq σ] [StrObj σ] in
theorem insertChain_eq {n f : ℕ} (hn : n < t.node.length) (hf : f < t.node.length) :
    ∃ t', insertChain t n f = .ok t' ∧ t'.keyAt = t.keyAt ∧ t'.valAt = t.valAt ∧
      t'.nextAt = splice t.nextAt n f ∧ t'.array = t.array ∧ t'.hmask = t.hmask ∧
      t'.freetop = t.freetop ∧ t'.node.length = t.node.length := by
  set t₁ := t.setNode f ⟨t.valAt f, t.keyAt f, t.nextAt n⟩ with ht₁
  have hk₁ : t₁.keyAt = t.keyAt := by
    rw [ht₁, Tab.keyAt_setNode hf, update_eq_self]
  have hv₁ : t₁.valAt = t.valAt := by
    rw [ht₁, Tab.valAt_setNode hf, update_eq_self]
  have hx₁ : t₁.nextAt = update t.nextAt f (t.nextAt n) := by
    rw [ht₁, Tab.nextAt_setNode hf]
  have hlen₁ : t₁.node.length = t.node.length := t.length_setNode f _
  have hn₁ : n < t₁.node.length := by rw [hlen₁]; exact hn
  refine ⟨t₁.setNode n ⟨t₁.valAt n, t₁.keyAt n, some f⟩, ?_, ?_, ?_, ?_, rfl, rfl, rfl, ?_⟩
  · have h₁ := t.nodeAt_eq hn
    have h₂ := t.nodeAt_eq hf
    have h₃ := t₁.nodeAt_eq hn₁
    simp only [insertChain, h₁, h₂, bind, Except.bind, pure, Except.pure]
    rw [← ht₁, h₃]
  · rw [Tab.keyAt_setNode hn₁, update_eq_self, hk₁]
  · rw [Tab.valAt_setNode hn₁, update_eq_self, hv₁]
  · rw [Tab.nextAt_setNode hn₁, hx₁]
    rfl
  · rw [Tab.length_setNode, hlen₁]

omit [DecidableEq σ] in
/-- Moving the foreign key of `n` to the fresh node `f`: under the invariant the rechaining
loop finds nothing to do. -/
theorem moveColliding_eq {top : ℕ}
    (h : Scatter.Inv Val.nil Val.nil (hashkey t) t.node.length t.view top)
    (hlt : ∀ k, hashkey t k < t.node.length) {n f : ℕ} (hkey : t.keyAt n ≠ .nil)
    (hforeign : hashkey t (t.keyAt n) ≠ n) (hf : t.keyAt f = .nil) (hfN : f < t.node.length) :
    ∃ t' p, moveColliding t (hashkey t (t.keyAt n)) n f = .ok t' ∧ t.nextAt p = some n ∧
      t'.keyAt = update t.keyAt f (t.keyAt n) ∧
      t'.valAt = update (update t.valAt f (t.valAt n)) n .nil ∧
      t'.nextAt = displace t.nextAt p n f ∧ t'.array = t.array ∧ t'.hmask = t.hmask ∧
      t'.freetop = t.freetop ∧ t'.node.length = t.node.length := by
  have hnN : n < t.node.length := h.key_lt n hkey
  have hnf : n ≠ f := fun hnf => hkey (hnf ▸ hf)
  obtain ⟨-, hfnext, hfpred⟩ := h.virgin f hf
  -- the predecessor of `n` on the chain of its key
  obtain ⟨l, hc, hl, hlen⟩ := h.chain (hlt (t.keyAt n))
  have hmem : n ∈ l := hc.mem_iff.mpr (h.reach n hkey)
  obtain ⟨p, hfind, hpn, hpN⟩ :=
    findPred_spec hc hl hmem hforeign (show l.length ≤ t.node.length + 1 by omega)
  have hpne : p ≠ n := h.grounded.next_ne_self hpn
  have hpf : p ≠ f := by
    rintro rfl
    exact absurd (hpn.symm.trans hfnext) (by simp)
  -- the three writes
  set t₁ := t.setNode p ⟨t.valAt p, t.keyAt p, some f⟩ with ht₁
  set t₂ := t₁.setNode f ⟨t₁.valAt n, t₁.keyAt n, t₁.nextAt n⟩ with ht₂
  set t₃ := t₂.setNode n ⟨.nil, t₁.keyAt n, none⟩ with ht₃
  have hlen₁ : t₁.node.length = t.node.length := t.length_setNode p _
  have hlen₂ : t₂.node.length = t.node.length := (t₁.length_setNode f _).trans hlen₁
  have hlen₃ : t₃.node.length = t.node.length := (t₂.length_setNode n _).trans hlen₂
  have hk₁ : t₁.keyAt = t.keyAt := by
    rw [ht₁, Tab.keyAt_setNode hpN, update_eq_self]
  have hv₁ : t₁.valAt = t.valAt := by
    rw [ht₁, Tab.valAt_setNode hpN, update_eq_self]
  have hx₁ : t₁.nextAt = update t.nextAt p (some f) := by
    rw [ht₁, Tab.nextAt_setNode hpN]
  have hx₁n : t₁.nextAt n = t.nextAt n := by
    rw [hx₁, update_of_ne hpne.symm]
  have hk₃ : t₃.keyAt = update t.keyAt f (t.keyAt n) := by
    rw [ht₃, Tab.keyAt_setNode (by rw [hlen₂]; exact hnN), ht₂,
      Tab.keyAt_setNode (by rw [hlen₁]; exact hfN), hk₁]
    refine update_eq_iff.mpr ⟨?_, fun _ _ => rfl⟩
    rw [update_of_ne hnf]
  have hv₃ : t₃.valAt = update (update t.valAt f (t.valAt n)) n .nil := by
    rw [ht₃, Tab.valAt_setNode (by rw [hlen₂]; exact hnN), ht₂,
      Tab.valAt_setNode (by rw [hlen₁]; exact hfN), hv₁]
  have hx₃ : t₃.nextAt = displace t.nextAt p n f := by
    rw [ht₃, Tab.nextAt_setNode (by rw [hlen₂]; exact hnN), ht₂,
      Tab.nextAt_setNode (by rw [hlen₁]; exact hfN), hx₁n, hx₁]
    rfl
  have hmask₃ : t₃.hmask = t.hmask := rfl
  -- nobody behind `f` belongs to `n`
  have hgr : Grounded t₃.nextAt := by
    rw [hx₃]
    exact h.grounded.displace h.predUnique hpn hpne hnf hfnext hfpred
  obtain ⟨l₃, hc₃⟩ := hgr f
  have hlt₃ : ∀ a b, t₃.nextAt a = some b → b < t₃.node.length := by
    intro a b hab
    rw [hx₃] at hab
    rw [hlen₃]
    rcases displace_inv hnf hpne hpf hab with ⟨-, hc'⟩ | ⟨-, hc'⟩ | ⟨-, -, hc'⟩
    · exact hc' ▸ hfN
    · exact h.link_lt n b hc'
    · exact h.link_lt a b hc'
  have hl₃ : ∀ x ∈ l₃, x < t₃.node.length := by
    intro x hx
    rcases Relation.ReflTransGen.cases_tail (hc₃.mem_iff.mp hx) with rfl | ⟨y, -, hy⟩
    · rw [hlen₃]; exact hfN
    · exact hlt₃ y x hy
  have hre : rechain n (t₃.node.length + 1) t₃ f = .ok t₃ := by
    refine rechain_eq hc₃ hl₃ ?_ ?_
    · intro x hx hxk hxf
      rw [hashkey_congr hmask₃, hk₃, update_of_ne hxf]
      rw [hk₃, update_of_ne hxf] at hxk
      exact h.main_ne hforeign hxk
    · have := hc₃.length_le (by rw [hlen₃]; exact hfN) hlt₃
      omega
  refine ⟨t₃, p, ?_, hpn, hk₃, hv₃, hx₃, rfl, rfl, rfl, hlen₃⟩
  have hr₁ := t.nodeAt_eq hpN
  have hr₂ := t₁.nodeAt_eq (i := n) (by rw [hlen₁]; exact hnN)
  simp only [moveColliding, hfind, hr₁, bind, Except.bind]
  rw [← ht₁, hr₂]
  simp only
  rw [← ht₂, ← ht₃]
  exact hre

end pieces

/-! ## Insertion -/

def Tab.Full (t : Tab σ) : Prop := ∀ i, i < t.node.length → t.keyAt i ≠ .nil

/-- `t'` has the nodes of `t` and at most one of them came to hold a key. -/
def Tab.Grows (t t' : Tab σ) : Prop :=
  t'.node.length = t.node.length ∧
    ∃ x, ∀ i, t'.keyAt i ≠ .nil → i = x ∨ t.keyAt i ≠ .nil

omit [DecidableEq σ] in
theorem Tab.Inv.rebuild {t t' : Tab σ} (h : t.Inv) {k : Val σ} (hk : k.IsKey)
    (ha : t'.array = t.array) (hm : t'.hmask = t.hmask) (hl : t'.node.length = t.node.length)
    (hkeys : ∀ i, t'.keyAt i = k ∨ ∃ j, t'.keyAt i = t.keyAt j)
    (hs : Scatter.Inv Val.nil Val.nil (hashkey t) t.node.length t'.view t'.freetop) : t'.Inv := by
  refine ⟨by rw [hl, hm]; exact h.size, by rw [hm]; exact h.mask_pos,
    by rw [ha]; exact h.asize_lt, fun i hi => ?_, ?_⟩
  · rcases hkeys i with hik | ⟨j, hij⟩
    · rw [hik]
      exact hk
    · rw [hij] at hi ⊢
      exact h.isKey j hi
  · rw [hashkey_congr hm, hl]
    exact hs

/-- **Insertion**: a key that is not stored gets a node without value, nothing else changes, or
the table is full and is left alone. -/
theorem kpTabNewkey_spec {t : Tab σ} (h : t.Inv) {k : Val σ} (hk : k.IsKey)
    (hfresh : ∀ i, t.keyAt i ≠ k) :
    (kpTabNewkey t k = .ok (t, none) ∧ t.Full) ∨
      ∃ t' i, kpTabNewkey t k = .ok (t', some (.node i)) ∧ t'.Inv ∧ t'.array = t.array ∧
        t'.keyAt i = k ∧ t'.valAt i = .nil ∧ t.Grows t' ∧
        (∀ i, t'.keyAt i = k ∨ ∃ j, t'.keyAt i = t.keyAt j) ∧
        ∀ k', k' ≠ .nil → k' ≠ k → t'.lookup k' = t.lookup k' := by
  have hknil := hk.ne_nil
  set n := hashkey t k with hn
  have hnN : n < t.node.length := h.hashkey_lt k
  have hnode := t.nodeAt_eq hnN
  have hmask : (t.hmask.toNat == 0) = false := by
    have := h.mask_pos
    simp only [beq_eq_false_iff_ne]
    omega
  by_cases hval : t.valAt n = .nil
  · -- the main node holds no value: take it
    right
    obtain ⟨t', hplace, hview, ha, hm, hft, hl⟩ := placeKey_eq hnN k
    have hkeys : t'.keyAt = update t.keyAt n k := congrArg Scatter.State.key hview
    have hvals : t'.valAt = t.valAt := congrArg Scatter.State.val hview
    have hold : ∀ i, i ≠ n → t'.keyAt i = t.keyAt i := fun i hi => by
      rw [hkeys, update_of_ne hi]
    have hfrom : ∀ i, t'.keyAt i = k ∨ ∃ j, t'.keyAt i = t.keyAt j := fun i => by
      by_cases hin : i = n
      · exact .inl (by rw [hin, hkeys, update_self])
      · exact .inr ⟨i, hold i hin⟩
    have hinv : t'.Inv := by
      refine h.rebuild hk ha hm hl hfrom ?_
      rw [hview, hft]
      exact h.scatter.place hknil hn.symm hnN hfresh
    have hgrow : t.Grows t' := by
      refine ⟨hl, n, fun i hi => ?_⟩
      by_cases hin : i = n
      · exact .inl hin
      · exact .inr (by rwa [hold i hin] at hi)
    refine ⟨t', n, ?_, hinv, ha, by rw [hkeys, update_self], by rw [hvals, hval], hgrow,
      hfrom, ?_⟩
    · simp only [kpTabNewkey, ← hn, hnode, bind, Except.bind, hmask]
      simp [hval, Val.isNil, hplace, pure, Except.pure]
    · intro k' hk' hkk
      refine h.lookup_congr hinv hk' fun v hv => ?_
      rw [hview]
      exact Scatter.State.holds_place hval hv hkk
  · have hnil : (t.valAt n).isNil = false := (Val.isNil_eq_false_iff _).mpr hval
    have hkeyn : t.keyAt n ≠ .nil := fun hkn => hval (h.scatter.virgin n hkn).1
    rcases findFree_spec h.scatter.top_le with ⟨hfree, hbelow⟩ | ⟨f, hfree, hflt, hfnil, hbetween⟩
    · left
      constructor
      · simp only [kpTabNewkey, ← hn, hnode, bind, Except.bind, hmask]
        simp [hnil, hfree, pure, Except.pure]
      · intro i hi
        by_cases hit : i < t.freetop
        · exact hbelow i hit
        · exact h.scatter.used i (by omega) hi
    · right
      have hfN : f < t.node.length := lt_of_lt_of_le hflt h.scatter.top_le
      have hused : ∀ i, f < i → i < t.node.length → t.view.key i ≠ .nil := by
        intro i hfi hi
        by_cases hit : i < t.freetop
        · exact hbetween i hfi hit
        · exact h.scatter.used i (by omega) hi
      have hnf : n ≠ f := fun hnf => hkeyn (hnf ▸ hfnil)
      -- the table with the new `freetop`
      set t₀ : Tab σ := { t with freetop := f } with ht₀
      have hnode₀ : t₀.nodeAt n = .ok ⟨t.valAt n, t.keyAt n, t.nextAt n⟩ := hnode
      by_cases hmain : hashkey t (t.keyAt n) = n
      · -- the main node belongs to its own key: chain the fresh node behind it
        obtain ⟨t₁, hins, hk₁, hv₁, hx₁, ha₁, hm₁, hft₁, hl₁⟩ :=
          insertChain_eq (t := t₀) (n := n) (f := f) hnN hfN
        obtain ⟨t', hplace, hview, ha, hm, hft, hl⟩ :=
          placeKey_eq (t := t₁) (n := f) (by rw [hl₁]; exact hfN) k
        have hv : t'.view = t.view.insert n f k := by
          rw [hview, Tab.view, hk₁, hv₁, hx₁]
          rfl
        have hkeys : t'.keyAt = update t.keyAt f k := congrArg Scatter.State.key hv
        have hvals : t'.valAt = t.valAt := congrArg Scatter.State.val hv
        have hold : ∀ i, i ≠ f → t'.keyAt i = t.keyAt i := fun i hi => by
          rw [hkeys, update_of_ne hi]
        have hfrom : ∀ i, t'.keyAt i = k ∨ ∃ j, t'.keyAt i = t.keyAt j := fun i => by
          by_cases hif : i = f
          · exact .inl (by rw [hif, hkeys, update_self])
          · exact .inr ⟨i, hold i hif⟩
        have hinv : t'.Inv := by
          refine h.rebuild hk (ha.trans ha₁) (hm.trans hm₁) (hl.trans hl₁) hfrom ?_
          rw [hv, hft, hft₁]
          exact h.scatter.insert hknil hn.symm hkeyn hmain hfnil hfN hused hfresh
        have hgrow : t.Grows t' := by
          refine ⟨hl.trans hl₁, f, fun i hi => ?_⟩
          by_cases hif : i = f
          · exact .inl hif
          · exact .inr (by rwa [hold i hif] at hi)
        refine ⟨t', f, ?_, hinv, ha.trans ha₁, by rw [hkeys, update_self],
          by rw [hvals]; exact (h.scatter.virgin f hfnil).1, hgrow, hfrom, ?_⟩
        · simp only [kpTabNewkey, ← hn, hnode, bind, Except.bind, hmask, hnil, hfree]
          simp only [Bool.not_false, Bool.true_or, if_true]
          rw [← ht₀, hnode₀]
          simp only [hashkey_congr (show t₀.hmask = t.hmask from rfl), hmain, ne_eq,
            not_true_eq_false, if_false, hins, hplace]
          rfl
        · intro k' hk' hkk
          refine h.lookup_congr hinv hk' fun v hvn => ?_
          rw [hv]
          exact Scatter.State.holds_insert (h.scatter.virgin f hfnil).1 hvn hkk
      · -- the main node is held by a foreign key: move it away
        obtain ⟨t₁, p, hmove, hp, hk₁, hv₁, hx₁, ha₁, hm₁, hft₁, hl₁⟩ :=
          moveColliding_eq (t := t₀) h.scatter h.hashkey_lt hkeyn hmain hfnil hfN
        obtain ⟨t', hplace, hview, ha, hm, hft, hl⟩ :=
          placeKey_eq (t := t₁) (n := n) (by rw [hl₁]; exact hnN) k
        have hv : t'.view = t.view.move .nil p n f k := by
          rw [hview, Tab.view, hk₁, hv₁, hx₁]
          rfl
        have hkeys : t'.keyAt = update (update t.keyAt f (t.keyAt n)) n k :=
          congrArg Scatter.State.key hv
        have hvals : t'.valAt = update (update t.valAt f (t.valAt n)) n .nil :=
          congrArg Scatter.State.val hv
        have hold : ∀ i, i ≠ n → i ≠ f → t'.keyAt i = t.keyAt i := fun i hi hi' => by
          rw [hkeys, update_of_ne hi, update_of_ne hi']
        have hmoved : t'.keyAt f = t.keyAt n := by
          rw [hkeys, update_of_ne hnf.symm, update_self]
        have hfrom : ∀ i, t'.keyAt i = k ∨ ∃ j, t'.keyAt i = t.keyAt j := fun i => by
          by_cases hin : i = n
          · exact .inl (by rw [hin, hkeys, update_self])
          · by_cases hif : i = f
            · exact .inr ⟨n, by rw [hif, hmoved]⟩
            · exact .inr ⟨i, hold i hin hif⟩
        have hinv : t'.Inv := by
          refine h.rebuild hk (ha.trans ha₁) (hm.trans hm₁) (hl.trans hl₁) hfrom ?_
          rw [hv, hft, hft₁]
          exact h.scatter.move hknil hn.symm hkeyn hmain hp hfnil hfN hused hfresh
        have hgrow : t.Grows t' := by
          refine ⟨hl.trans hl₁, f, fun i hi => ?_⟩
          by_cases hif : i = f
          · exact .inl hif
          · by_cases hin : i = n
            · exact .inr (by rw [hin]; exact hkeyn)
            · exact .inr (by rwa [hold i hin hif] at hi)
        refine ⟨t', n, ?_, hinv, ha.trans ha₁, by rw [hkeys, update_self],
          by rw [hvals, update_self], hgrow, hfrom, ?_⟩
        · simp only [kpTabNewkey, ← hn, hnode, bind, Except.bind, hmask, hnil, hfree]
          simp only [Bool.not_false, Bool.true_or, if_true]
          rw [← ht₀, hnode₀]
          simp only [hashkey_congr (show t₀.hmask = t.hmask from rfl)] at hmove ⊢
          have hmove' : moveColliding t₀ (hashkey t (t.keyAt n)) n f = .ok t₁ := hmove
          simp only [hmain, ne_eq, not_false_eq_true, if_true, hmove', hplace]
          rfl
        · intro k' hk' hkk
          refine h.lookup_congr hinv hk' fun v hvn => ?_
          rw [hv]
          exact Scatter.State.holds_move hnf (h.scatter.virgin f hfnil).1 hvn hkk

end Ktap
