import ReadingComment.Lib.Chain

/-!
# Chained scatter tables

A scatter table stores `N` nodes; the keys with one main position are found by following the links
from it. Brent's variation, over arbitrary keys and values with an "empty" key `k₀` and value `v₀`:

* `State.place` — a key takes its own main node, which holds no value;
* `State.insert` — a key takes a fresh node right behind its main node;
* `State.move` — a key takes its own main node, and the foreign key there moves to a fresh node.

The heart of `Inv` is `anchored`: whenever some key is stored, the node at its main position is
occupied by a key that belongs there. So moving a foreign key away strands nobody.
-/

namespace Scatter

open Chain Function

variable {K V : Type*}

/-- What a table holds, node by node. -/
structure State (K V : Type*) where
  /-- the key of a node, `k₀` when it was never used -/
  key : ℕ → K
  /-- the value of a node, `v₀` when its key is dead -/
  val : ℕ → V
  /-- the link to the next node of the chain -/
  next : ℕ → Option ℕ

namespace State

/-- Some node holds the value `v` under the key `k`. -/
def Holds (s : State K V) (k : K) (v : V) : Prop := ∃ i, s.key i = k ∧ s.val i = v

/-- `k` takes the node `n`. -/
def place (s : State K V) (n : ℕ) (k : K) : State K V :=
  { s with key := Function.update s.key n k }

/-- `k` takes the fresh node `f` behind `n`. -/
def insert (s : State K V) (n f : ℕ) (k : K) : State K V :=
  { s with key := Function.update s.key f k, next := splice s.next n f }

/-- The key of `n`, whose predecessor is `p`, moves to the fresh node `f`; `k` takes `n`. -/
def move (s : State K V) (v₀ : V) (p n f : ℕ) (k : K) : State K V where
  key := Function.update (Function.update s.key f (s.key n)) n k
  val := Function.update (Function.update s.val f (s.val n)) n v₀
  next := displace s.next p n f

end State

/-- The invariant of a table with `N` nodes whose free nodes are all below `top`. -/
structure Inv (k₀ : K) (v₀ : V) (main : K → ℕ) (N : ℕ) (s : State K V) (top : ℕ) : Prop where
  top_le : top ≤ N
  /-- free nodes are below `top` -/
  used : ∀ i, top ≤ i → i < N → s.key i ≠ k₀
  /-- a node that was never used is empty and unlinked -/
  virgin : ∀ i, s.key i = k₀ → s.val i = v₀ ∧ s.next i = none ∧ NoPred s.next i
  link_lt : ∀ a b, s.next a = some b → b < N
  key_lt : ∀ i, s.key i ≠ k₀ → i < N
  grounded : Grounded s.next
  predUnique : PredUnique s.next
  /-- the main node of a stored key is held by a key that belongs there -/
  anchored : ∀ i, s.key i ≠ k₀ →
    s.key (main (s.key i)) ≠ k₀ ∧ main (s.key (main (s.key i))) = main (s.key i)
  /-- a stored key is met on the walk from its main node -/
  reach : ∀ i, s.key i ≠ k₀ → Reach s.next (main (s.key i)) i
  /-- a key is stored once -/
  uniq : ∀ i j, s.key i ≠ k₀ → s.key i = s.key j → i = j

section

variable {k₀ : K} {v₀ : V} {main : K → ℕ} {N top : ℕ} {s : State K V}

/-- A node that holds a foreign key is nobody's main node. -/
theorem Inv.main_ne (h : Inv k₀ v₀ main N s top) {n : ℕ} (hn : main (s.key n) ≠ n) {i : ℕ}
    (hi : s.key i ≠ k₀) : main (s.key i) ≠ n := by
  intro hmain
  obtain ⟨-, hanch⟩ := h.anchored i hi
  rw [hmain] at hanch
  exact hn hanch

/-- The walk from a node in range stays in range and is short. -/
theorem Inv.chain (h : Inv k₀ v₀ main N s top) {a : ℕ} (ha : a < N) :
    ∃ l, ChainOf s.next a l ∧ (∀ x ∈ l, x < N) ∧ l.length ≤ N := by
  obtain ⟨l, hl⟩ := h.grounded a
  refine ⟨l, hl, ?_, hl.length_le ha h.link_lt⟩
  intro x hx
  rcases Relation.ReflTransGen.cases_tail (hl.mem_iff.mp hx) with rfl | ⟨y, -, hy⟩
  · exact ha
  · exact h.link_lt y x hy

theorem Inv.empty (hN : top = N) (hkey : ∀ i, s.key i = k₀) (hval : ∀ i, s.val i = v₀)
    (hnext : ∀ i, s.next i = none) : Inv k₀ v₀ main N s top where
  top_le := le_of_eq hN
  used i hi hi' := by omega
  virgin i _ := ⟨hval i, hnext i, fun a ha => by rw [hnext] at ha; cases ha⟩
  link_lt a b hab := by rw [hnext] at hab; cases hab
  key_lt i hi := absurd (hkey i) hi
  grounded a := ⟨[a], .last (hnext a)⟩
  predUnique _ _ _ ha _ := by rw [hnext] at ha; cases ha
  anchored i hi := absurd (hkey i) hi
  reach i hi := absurd (hkey i) hi
  uniq i j hi _ := absurd (hkey i) hi

/-- Only keys and links matter: values of used nodes may be overwritten. -/
theorem Inv.setVal (h : Inv k₀ v₀ main N s top) {i : ℕ} (hi : s.key i ≠ k₀)
    (v : V) : Inv k₀ v₀ main N { s with val := update s.val i v } top where
  top_le := h.top_le
  used := h.used
  virgin j hj := by
    have hji : j ≠ i := fun hji => hi (hji ▸ hj)
    obtain ⟨hv, hn, hp⟩ := h.virgin j hj
    exact ⟨(update_of_ne hji ..).trans hv, hn, hp⟩
  link_lt := h.link_lt
  key_lt := h.key_lt
  grounded := h.grounded
  predUnique := h.predUnique
  anchored := h.anchored
  reach := h.reach
  uniq := h.uniq

/-! ## A key takes its own main node -/

theorem Inv.place (h : Inv k₀ v₀ main N s top) {k : K} {n : ℕ} (hk : k ≠ k₀)
    (hmain : main k = n) (hn : n < N) (hfresh : ∀ i, s.key i ≠ k) :
    Inv k₀ v₀ main N (s.place n k) top := by
  have hself : (s.place n k).key n = k := update_self ..
  have hother : ∀ {i}, i ≠ n → (s.place n k).key i = s.key i := fun hi =>
    update_of_ne hi ..
  have hold : ∀ {i}, (s.place n k).key i = k₀ → s.key i = k₀ ∧ i ≠ n := by
    intro i hi
    have hin : i ≠ n := by
      rintro rfl
      exact hk (hself.symm.trans hi)
    exact ⟨by rw [← hother hin]; exact hi, hin⟩
  refine ⟨h.top_le, ?_, ?_, h.link_lt, ?_, h.grounded, h.predUnique, ?_, ?_, ?_⟩
  · intro i hi hi' hnil
    exact h.used i hi hi' (hold hnil).1
  · intro i hi
    exact h.virgin i (hold hi).1
  · intro i hi
    by_cases hin : i = n
    · exact hin ▸ hn
    · exact h.key_lt i (by rwa [hother hin] at hi)
  · intro i hi
    by_cases hin : i = n
    · subst hin
      rw [hself, hmain, hself]
      exact ⟨hk, hmain⟩
    · rw [hother hin] at hi ⊢
      obtain ⟨hne, hanch⟩ := h.anchored i hi
      by_cases hm : main (s.key i) = n
      · rw [hm, hself]
        exact ⟨hk, hmain⟩
      · rw [hother hm]
        exact ⟨hne, hanch⟩
  · intro i hi
    by_cases hin : i = n
    · subst hin
      rw [hself, hmain]
      exact .refl
    · rw [hother hin] at hi ⊢
      exact h.reach i hi
  · intro i j hi hij
    by_cases hin : i = n <;> by_cases hjn : j = n
    · exact hin.trans hjn.symm
    · subst hin
      rw [hself, hother hjn] at hij
      exact absurd hij.symm (hfresh j)
    · subst hjn
      rw [hself, hother hin] at hij
      exact absurd hij (hfresh i)
    · rw [hother hin] at hi
      rw [hother hin, hother hjn] at hij
      exact h.uniq i j hi hij

/-- Taking a node that holds no value changes no other key. -/
theorem State.holds_place {k k' : K} {v : V} {n : ℕ} (hval : s.val n = v₀) (hv : v ≠ v₀)
    (hk : k' ≠ k) : (s.place n k).Holds k' v ↔ s.Holds k' v := by
  constructor
  · rintro ⟨i, hi, hiv⟩
    have hin : i ≠ n := by
      rintro rfl
      exact hk (hi.symm.trans (update_self ..))
    exact ⟨i, by rw [← hi]; exact (update_of_ne hin ..).symm, hiv⟩
  · rintro ⟨i, hi, hiv⟩
    have hin : i ≠ n := by
      rintro rfl
      exact hv (hiv.symm.trans hval)
    exact ⟨i, by rw [← hi]; exact update_of_ne hin .., hiv⟩

/-! ## A key takes a fresh node behind its main node -/

theorem Inv.insert (h : Inv k₀ v₀ main N s top) {k : K} {n f : ℕ} (hk : k ≠ k₀)
    (hmain : main k = n) (hn : s.key n ≠ k₀) (hnmain : main (s.key n) = n)
    (hf : s.key f = k₀) (hfN : f < N) (hfree : ∀ i, f < i → i < N → s.key i ≠ k₀)
    (hfresh : ∀ i, s.key i ≠ k) : Inv k₀ v₀ main N (s.insert n f k) f := by
  obtain ⟨-, hfnext, hfpred⟩ := h.virgin f hf
  have hnf : n ≠ f := fun hnf => hn (hnf ▸ hf)
  have hself : (s.insert n f k).key f = k := update_self ..
  have hother : ∀ {i}, i ≠ f → (s.insert n f k).key i = s.key i := fun hi =>
    update_of_ne hi ..
  refine ⟨le_of_lt hfN, ?_, ?_, ?_, ?_, h.grounded.splice hnf hfpred,
    h.predUnique.splice hnf hfpred, ?_, ?_, ?_⟩
  · intro i hi hi'
    by_cases hif : i = f
    · rw [hif, hself]; exact hk
    · rw [hother hif]
      exact hfree i (by omega) hi'
  · intro i hi
    have hif : i ≠ f := by
      rintro rfl
      exact hk (hself.symm.trans hi)
    rw [hother hif] at hi
    obtain ⟨hv, hnx, hp⟩ := h.virgin i hi
    have hin : i ≠ n := fun hin => hn (hin ▸ hi)
    refine ⟨hv, (splice_ne hin hif).trans hnx, fun a ha => ?_⟩
    -- the new links lead to `f` and to the old successor of `n`
    by_cases han : a = n
    · subst han
      have ha' : some f = some i := splice_self.symm.trans ha
      exact hif (Option.some.inj ha').symm
    · by_cases haf : a = f
      · subst haf
        exact hp n ((splice_fresh hnf).symm.trans ha)
      · exact hp a ((splice_ne han haf).symm.trans ha)
  · intro a b hab
    by_cases han : a = n
    · subst han
      have hab' : some f = some b := splice_self.symm.trans hab
      exact (Option.some.inj hab') ▸ hfN
    · by_cases haf : a = f
      · subst haf
        exact h.link_lt n b ((splice_fresh hnf).symm.trans hab)
      · exact h.link_lt a b ((splice_ne han haf).symm.trans hab)
  · intro i hi
    by_cases hif : i = f
    · exact hif ▸ hfN
    · exact h.key_lt i (by rwa [hother hif] at hi)
  · intro i hi
    by_cases hif : i = f
    · subst hif
      rw [hself, hmain, hother hnf]
      exact ⟨hn, hnmain⟩
    · rw [hother hif] at hi ⊢
      obtain ⟨hne, hanch⟩ := h.anchored i hi
      have hmf : main (s.key i) ≠ f := fun hmf => hne (by rw [hmf]; exact hf)
      rw [hother hmf]
      exact ⟨hne, hanch⟩
  · intro i hi
    by_cases hif : i = f
    · subst hif
      rw [hself, hmain]
      exact .single splice_self
    · rw [hother hif] at hi ⊢
      exact (h.reach i hi).splice hnf hfnext
  · intro i j hi hij
    by_cases hif : i = f <;> by_cases hjf : j = f
    · exact hif.trans hjf.symm
    · subst hif
      rw [hself, hother hjf] at hij
      exact absurd hij.symm (hfresh j)
    · subst hjf
      rw [hself, hother hif] at hij
      exact absurd hij (hfresh i)
    · rw [hother hif] at hi
      rw [hother hif, hother hjf] at hij
      exact h.uniq i j hi hij

theorem State.holds_insert {k k' : K} {v : V} {n f : ℕ} (hval : s.val f = v₀) (hv : v ≠ v₀)
    (hk : k' ≠ k) : (s.insert n f k).Holds k' v ↔ s.Holds k' v :=
  State.holds_place (s := s) hval hv hk

/-! ## A foreign key moves away from the main node -/

theorem Inv.move (h : Inv k₀ v₀ main N s top) {k : K} {p n f : ℕ} (hk : k ≠ k₀)
    (hmain : main k = n) (hn : s.key n ≠ k₀) (hforeign : main (s.key n) ≠ n)
    (hp : s.next p = some n) (hf : s.key f = k₀) (hfN : f < N)
    (hfree : ∀ i, f < i → i < N → s.key i ≠ k₀) (hfresh : ∀ i, s.key i ≠ k) :
    Inv k₀ v₀ main N (s.move v₀ p n f k) f := by
  obtain ⟨-, hfnext, hfpred⟩ := h.virgin f hf
  have hnf : n ≠ f := fun hnf => hn (hnf ▸ hf)
  have hpn : p ≠ n := h.grounded.next_ne_self hp
  have hpf : p ≠ f := by
    rintro rfl
    rw [hfnext] at hp
    cases hp
  have hself : (s.move v₀ p n f k).key n = k := update_self ..
  have hmoved : (s.move v₀ p n f k).key f = s.key n := by
    simp [State.move, hnf.symm]
  have hother : ∀ {i}, i ≠ n → i ≠ f → (s.move v₀ p n f k).key i = s.key i := by
    intro i hi hi'
    simp [State.move, hi, hi']
  -- nodes that are still unused were unused before
  have hold : ∀ {i}, (s.move v₀ p n f k).key i = k₀ → s.key i = k₀ ∧ i ≠ n ∧ i ≠ f := by
    intro i hi
    have hin : i ≠ n := by
      rintro rfl
      exact hk (hself.symm.trans hi)
    have hif : i ≠ f := by
      rintro rfl
      exact hn (hmoved.symm.trans hi)
    exact ⟨by rw [← hother hin hif]; exact hi, hin, hif⟩
  refine ⟨le_of_lt hfN, ?_, ?_, ?_, ?_,
    h.grounded.displace h.predUnique hp hpn hnf hfnext hfpred,
    h.predUnique.displace hp hpn hnf hfnext hfpred, ?_, ?_, ?_⟩
  · intro i hi hi' hnil
    obtain ⟨hkey, -, hif⟩ := hold hnil
    exact hfree i (by omega) hi' hkey
  · intro i hi
    obtain ⟨hkey, hin, hif⟩ := hold hi
    obtain ⟨hv, hnx, hpred⟩ := h.virgin i hkey
    have hip : i ≠ p := by
      rintro rfl
      rw [hnx] at hp
      cases hp
    refine ⟨by simp [State.move, hin, hif, hv], (displace_ne hip hin hif).trans hnx, ?_⟩
    intro a ha
    rcases displace_inv hnf hpn hpf ha with ⟨-, hc⟩ | ⟨-, hc⟩ | ⟨-, -, hc⟩
    · exact hif hc
    · exact hpred n hc
    · exact hpred a hc
  · intro a b hab
    rcases displace_inv hnf hpn hpf hab with ⟨-, hc⟩ | ⟨-, hc⟩ | ⟨-, -, hc⟩
    · exact hc ▸ hfN
    · exact h.link_lt n b hc
    · exact h.link_lt a b hc
  · intro i hi
    by_cases hin : i = n
    · exact hin ▸ h.key_lt n hn
    · by_cases hif : i = f
      · exact hif ▸ hfN
      · exact h.key_lt i (by rwa [hother hin hif] at hi)
  · intro i hi
    by_cases hin : i = n
    · subst hin
      rw [hself, hmain, hself]
      exact ⟨hk, hmain⟩
    · -- every other key has its main position away from `n` and from `f`
      have key : ∀ j, s.key j ≠ k₀ → (s.move v₀ p n f k).key (main (s.key j)) ≠ k₀ ∧
          main ((s.move v₀ p n f k).key (main (s.key j))) = main (s.key j) := by
        intro j hj
        obtain ⟨hne, hanch⟩ := h.anchored j hj
        have hmf : main (s.key j) ≠ f := fun hmf => hne (by rw [hmf]; exact hf)
        rw [hother (h.main_ne hforeign hj) hmf]
        exact ⟨hne, hanch⟩
      by_cases hif : i = f
      · subst hif
        rw [hmoved]
        exact key n hn
      · rw [hother hin hif] at hi ⊢
        exact key i hi
  · intro i hi
    by_cases hin : i = n
    · subst hin
      rw [hself, hmain]
      exact .refl
    · by_cases hif : i = f
      · subst hif
        rw [hmoved]
        exact (h.reach n hn).displace_to h.predUnique hp hpn hnf hfnext hforeign
      · rw [hother hin hif] at hi ⊢
        exact (h.reach i hi).displace h.predUnique hp hpn hnf hfnext
          (h.main_ne hforeign hi) hin
  · -- where a key of the new table was before
    have src : ∀ i, i ≠ n → (s.move v₀ p n f k).key i ≠ k₀ →
        ∃ j, j ≠ f ∧ s.key j ≠ k₀ ∧ (s.move v₀ p n f k).key i = s.key j ∧
          (i = f ∧ j = n ∨ i ≠ f ∧ j = i) := by
      intro i hin hi
      by_cases hif : i = f
      · exact ⟨n, hnf, hn, by rw [hif, hmoved], .inl ⟨hif, rfl⟩⟩
      · rw [hother hin hif] at hi
        exact ⟨i, hif, hi, hother hin hif, .inr ⟨hif, rfl⟩⟩
    intro i j hi hij
    by_cases hin : i = n <;> by_cases hjn : j = n
    · exact hin.trans hjn.symm
    · subst hin
      obtain ⟨j', -, -, hj', -⟩ := src j hjn (hij ▸ hi)
      rw [hself, hj'] at hij
      exact absurd hij.symm (hfresh j')
    · subst hjn
      obtain ⟨i', -, -, hi', -⟩ := src i hin hi
      rw [hself, hi'] at hij
      exact absurd hij (hfresh i')
    · obtain ⟨i', -, hine, hi', hci⟩ := src i hin hi
      obtain ⟨j', -, -, hj', hcj⟩ := src j hjn (hij ▸ hi)
      rw [hi', hj'] at hij
      have := h.uniq i' j' hine hij
      omega

theorem State.holds_move {k k' : K} {v : V} {p n f : ℕ} (hnf : n ≠ f) (hval : s.val f = v₀)
    (hv : v ≠ v₀) (hk : k' ≠ k) : (s.move v₀ p n f k).Holds k' v ↔ s.Holds k' v := by
  constructor
  · rintro ⟨i, hi, hiv⟩
    have hin : i ≠ n := by
      rintro rfl
      exact hk (hi.symm.trans (update_self ..))
    by_cases hif : i = f
    · subst hif
      exact ⟨n, by simpa [State.move, hin] using hi, by simpa [State.move, hin] using hiv⟩
    · exact ⟨i, by simpa [State.move, hin, hif] using hi,
        by simpa [State.move, hin, hif] using hiv⟩
  · rintro ⟨i, hi, hiv⟩
    by_cases hin : i = n
    · subst hin
      exact ⟨f, by simpa [State.move, hnf.symm] using hi, by simpa [State.move, hnf.symm] using hiv⟩
    · have hif : i ≠ f := by
        rintro rfl
        exact hv (hiv.symm.trans hval)
      exact ⟨i, by simpa [State.move, hin, hif] using hi,
        by simpa [State.move, hin, hif] using hiv⟩

end

end Scatter
