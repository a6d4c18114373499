import Mathlib.Data.List.Nodup
import Mathlib.Data.List.Perm.Subperm
import Mathlib.Data.List.Range

/-!
# Singly linked chains threaded through an index space

A partial function `next : ℕ → Option ℕ` says which node follows which. The two updates of a chained
scatter table:

* `splice next n f` — put the unlinked node `f` right after `n`;
* `displace next p n f` — let `f` take the place of `n` after its predecessor `p`, and unlink `n`.

Chains are finite (`Grounded`); `ChainOf` carries the nodes that a walk visits, and `Reach` is the
reflexive-transitive closure of the links.
-/

namespace Chain

open List

/-- The walk from a node, written out: the nodes visited until the links end. -/
inductive ChainOf (next : ℕ → Option ℕ) : ℕ → List ℕ → Prop where
  /-- a node without successor -/
  | last {a : ℕ} : next a = none → ChainOf next a [a]
  /-- a node followed by the walk of its successor -/
  | cons {a b : ℕ} {l : List ℕ} : next a = some b → ChainOf next b l → ChainOf next a (a :: l)

/-- `b` is met on the walk from `a`. -/
def Reach (next : ℕ → Option ℕ) : ℕ → ℕ → Prop :=
  Relation.ReflTransGen fun a b => next a = some b

/-- Every walk ends. -/
def Grounded (next : ℕ → Option ℕ) : Prop := ∀ a, ∃ l, ChainOf next a l

/-- No node has two predecessors. -/
def PredUnique (next : ℕ → Option ℕ) : Prop :=
  ∀ ⦃a b c : ℕ⦄, next a = some c → next b = some c → a = b

/-- Nobody points to `f`. -/
def NoPred (next : ℕ → Option ℕ) (f : ℕ) : Prop := ∀ a, next a ≠ some f

variable {next : ℕ → Option ℕ}

/-! ## Walks -/

variable {l : List ℕ}

theorem ChainOf.head_mem {a : ℕ} (h : ChainOf next a l) : a ∈ l := by
  cases h with
  | last _ => exact mem_cons_self ..
  | cons _ _ => exact mem_cons_self ..

theorem ChainOf.unique {a : ℕ} {l l' : List ℕ} (h : ChainOf next a l)
    (h' : ChainOf next a l') : l = l' := by
  induction h generalizing l' with
  | last hn =>
    cases h' with
    | last _ => rfl
    | cons hs _ => rw [hn] at hs; cases hs
  | cons hn _ ih =>
    cases h' with
    | last hn' => rw [hn] at hn'; cases hn'
    | cons hs hc =>
      rw [hn] at hs
      cases hs
      rw [ih hc]

/-- A node met on a walk has a walk of its own that is no longer. -/
theorem ChainOf.of_mem {a x : ℕ} (h : ChainOf next a l) (hx : x ∈ l) :
    ∃ l', ChainOf next x l' ∧ l'.length ≤ l.length := by
  induction h with
  | last hn =>
    obtain rfl := mem_singleton.mp hx
    exact ⟨[x], .last hn, le_refl _⟩
  | cons hn hc ih =>
    rcases mem_cons.mp hx with rfl | hx
    · exact ⟨_, .cons hn hc, le_refl _⟩
    · obtain ⟨l', hl', hlen⟩ := ih hx
      exact ⟨l', hl', by simp only [length_cons]; omega⟩

theorem ChainOf.nodup {a : ℕ} (h : ChainOf next a l) : l.Nodup := by
  induction h with
  | last _ => exact nodup_singleton _
  | @cons a b l hn hc ih =>
    refine nodup_cons.mpr ⟨fun hmem => ?_, ih⟩
    obtain ⟨l', hl', hlen⟩ := hc.of_mem hmem
    have := hl'.unique (.cons hn hc)
    rw [this, length_cons] at hlen
    omega

/-- A walk through nodes below `N` has at most `N` nodes. -/
theorem ChainOf.congr {next' : ℕ → Option ℕ} {a : ℕ} (h : ChainOf next a l)
    (heq : ∀ x ∈ l, next' x = next x) : ChainOf next' a l := by
  induction h with
  | last hn => exact .last ((heq _ mem_cons_self).trans hn)
  | cons hn _ ih =>
    obtain ⟨ha, hrest⟩ := forall_mem_cons.mp heq
    exact .cons (ha.trans hn) (ih hrest)

/-- A walk whose last node is linked to the head of another one. -/
theorem ChainOf.append {next' : ℕ → Option ℕ} {a b z : ℕ} {l' : List ℕ}
    (h : ChainOf next a (l ++ [z])) (h' : ChainOf next' b l') (heq : ∀ x ∈ l, next' x = next x)
    (hlast : next' z = some b) : ChainOf next' a (l ++ z :: l') := by
  induction l generalizing a with
  | nil =>
    cases h with
    | last _ | cons _ _ => exact .cons hlast h'
  | cons x l ih =>
    obtain ⟨hx, hrest⟩ := forall_mem_cons.mp heq
    generalize hl : x :: l ++ [z] = w at h
    cases h with
    | last _ => simp at hl
    | cons hn hc =>
      cases hl
      exact .cons (hx.trans hn) (ih hc hrest)

theorem ChainOf.length_le {N a : ℕ} (h : ChainOf next a l) (ha : a < N)
    (hN : ∀ x y, next x = some y → y < N) : l.length ≤ N := by
  have hlt : ∀ x ∈ l, x < N := by
    induction h with
    | last _ => intro x hx; obtain rfl := mem_singleton.mp hx; exact ha
    | cons hn _ ih =>
      intro x hx
      rcases mem_cons.mp hx with rfl | hx
      · exact ha
      · exact ih (hN _ _ hn) x hx
  have hsub : l ⊆ List.range N := fun x hx => mem_range.mpr (hlt x hx)
  have := (h.nodup.subperm hsub).length_le
  rwa [length_range] at this

/-- Meeting on the written-out walk is reachability. -/
theorem ChainOf.mem_iff {a b : ℕ} (h : ChainOf next a l) :
    b ∈ l ↔ Reach next a b := by
  constructor
  · intro hb
    induction h with
    | last _ => obtain rfl := mem_singleton.mp hb; exact .refl
    | cons hn _ ih =>
      rcases mem_cons.mp hb with rfl | hb
      · exact .refl
      · exact .head hn (ih hb)
  · intro hr
    induction hr using Relation.ReflTransGen.head_induction_on generalizing l with
    | refl => exact h.head_mem
    | head hs _ ih =>
      cases h with
      | last hn => rw [hn] at hs; cases hs
      | cons hn hc =>
        rw [hn] at hs
        cases hs
        exact mem_cons_of_mem _ (ih hc)

/-- A node reached from another one is the last step of some predecessor. -/
theorem Reach.pred {a n : ℕ} (h : Reach next a n) (hne : a ≠ n) :
    ∃ p, Reach next a p ∧ next p = some n := by
  rcases Relation.ReflTransGen.cases_tail h with rfl | ⟨p, hp, hn⟩
  · exact absurd rfl hne
  · exact ⟨p, hp, hn⟩

theorem Grounded.next_ne_self (hg : Grounded next) {p n : ℕ} (h : next p = some n) : p ≠ n := by
  rintro rfl
  obtain ⟨l, hl⟩ := hg p
  have hnd := hl.nodup
  cases hl with
  | last hnone => rw [h] at hnone; cases hnone
  | cons hs hc =>
    rw [h] at hs
    cases hs
    exact (nodup_cons.mp hnd).1 hc.head_mem

/-! ## Splicing a fresh node in -/

/-- Put `f` right after `n`. -/
def splice (next : ℕ → Option ℕ) (n f : ℕ) : ℕ → Option ℕ :=
  Function.update (Function.update next f (next n)) n (some f)

section splice

variable {n f : ℕ}

@[simp] theorem splice_self : splice next n f n = some f := by
  simp [splice]

theorem splice_fresh (hnf : n ≠ f) : splice next n f f = next n := by
  simp [splice, Function.update_of_ne hnf.symm]

theorem splice_ne {a : ℕ} (hn : a ≠ n) (hf : a ≠ f) : splice next n f a = next a := by
  simp [splice, hn, hf]

theorem Reach.splice (hnf : n ≠ f) (hf : next f = none) {a b : ℕ} (h : Reach next a b) :
    Reach (splice next n f) a b := by
  induction h using Relation.ReflTransGen.head_induction_on with
  | refl => exact .refl
  | @head a c hs _ ih =>
    by_cases han : a = n
    · subst han
      exact .head splice_self (.head (by rw [splice_fresh hnf]; exact hs) ih)
    · have haf : a ≠ f := by
        rintro rfl
        rw [hf] at hs
        cases hs
      exact .head (by rw [splice_ne han haf]; exact hs) ih

theorem Grounded.splice (hg : Grounded next) (hnf : n ≠ f) (hp : NoPred next f) :
    Grounded (splice next n f) := by
  have hold : ∀ {a : ℕ} {l : List ℕ}, ChainOf next a l → a ≠ f →
      ∃ l', ChainOf (Chain.splice next n f) a l' := by
    intro a l h
    induction h with
    | @last a hn =>
      intro haf
      by_cases han : a = n
      · subst han
        exact ⟨_, .cons splice_self (.last (by rw [splice_fresh hnf]; exact hn))⟩
      · exact ⟨_, .last (by rw [splice_ne han haf]; exact hn)⟩
    | @cons a b l hn _ ih =>
      intro haf
      obtain ⟨l', hl'⟩ := ih fun hbf => hp a (hbf ▸ hn)
      by_cases han : a = n
      · subst han
        exact ⟨_, .cons splice_self (.cons (by rw [splice_fresh hnf]; exact hn) hl')⟩
      · exact ⟨_, .cons (by rw [splice_ne han haf]; exact hn) hl'⟩
  intro a
  by_cases haf : a = f
  · subst haf
    obtain ⟨l, hl⟩ := hg n
    obtain ⟨l', hl'⟩ := hold hl hnf
    cases hl' with
    | last hn => rw [splice_self] at hn; cases hn
    | cons hn hc =>
      rw [splice_self] at hn
      cases hn
      exact ⟨_, hc⟩
  · obtain ⟨l, hl⟩ := hg a
    exact hold hl haf

theorem PredUnique.splice (hu : PredUnique next) (hnf : n ≠ f) (hp : NoPred next f) :
    PredUnique (splice next n f) := by
  -- the only new links are `n → f` and `f → next n`
  have inv : ∀ {a c : ℕ}, Chain.splice next n f a = some c →
      (a = n ∧ c = f) ∨ (a = f ∧ next n = some c) ∨ (a ≠ n ∧ next a = some c) := by
    intro a c h
    by_cases han : a = n
    · subst han
      rw [splice_self] at h
      exact .inl ⟨rfl, (Option.some.inj h).symm⟩
    · by_cases haf : a = f
      · subst haf
        rw [splice_fresh hnf] at h
        exact .inr (.inl ⟨rfl, h⟩)
      · rw [splice_ne han haf] at h
        exact .inr (.inr ⟨han, h⟩)
  intro a b c ha hb
  rcases inv ha with ⟨rfl, rfl⟩ | ⟨rfl, hna⟩ | ⟨hne, hna⟩ <;>
    rcases inv hb with ⟨rfl, hcf⟩ | ⟨rfl, hnb⟩ | ⟨hne', hnb⟩
  · rfl
  · exact absurd hnb (hp _)
  · exact absurd hnb (hp _)
  · exact absurd (hcf ▸ hna) (hp _)
  · rfl
  · exact absurd (hu hna hnb).symm hne'
  · exact absurd (hcf ▸ hna) (hp _)
  · exact absurd (hu hna hnb) hne
  · exact hu hna hnb

end splice

/-! ## Displacing a node by a fresh one -/

/-- Let `f` take the place of `n` after its predecessor `p`; `n` is unlinked. -/
def displace (next : ℕ → Option ℕ) (p n f : ℕ) : ℕ → Option ℕ :=
  Function.update (Function.update (Function.update next p (some f)) f (next n)) n none

section displace

variable {p n f : ℕ}

@[simp] theorem displace_self : displace next p n f n = none := by
  simp [displace]

theorem displace_fresh (hnf : n ≠ f) : displace next p n f f = next n := by
  simp [displace, hnf.symm]

theorem displace_pred (hpn : p ≠ n) (hpf : p ≠ f) : displace next p n f p = some f := by
  simp [displace, hpn, hpf]

theorem displace_ne {a : ℕ} (hp : a ≠ p) (hn : a ≠ n) (hf : a ≠ f) :
    displace next p n f a = next a := by
  simp [displace, hp, hn, hf]

theorem displace_inv (hnf : n ≠ f) (hpn : p ≠ n) (hpf : p ≠ f) {a c : ℕ}
    (h : displace next p n f a = some c) :
    (a = p ∧ c = f) ∨ (a = f ∧ next n = some c) ∨ (a ≠ p ∧ a ≠ n ∧ next a = some c) := by
  by_cases han : a = n
  · subst han
    rw [displace_self] at h
    cases h
  · by_cases haf : a = f
    · subst haf
      rw [displace_fresh hnf] at h
      exact .inr (.inl ⟨rfl, h⟩)
    · by_cases hap : a = p
      · subst hap
        rw [displace_pred hpn hpf] at h
        exact .inl ⟨rfl, (Option.some.inj h).symm⟩
      · rw [displace_ne hap han haf] at h
        exact .inr (.inr ⟨hap, han, h⟩)

section

variable (hu : PredUnique next) (hpn : next p = some n) (hne : p ≠ n) (hnf : n ≠ f)
  (hf : next f = none)

include hu hpn hne hnf hf

/-- Paths between nodes other than `n` survive: `f` stands in for `n`. -/
theorem Reach.displace {a b : ℕ} (h : Reach next a b) (han : a ≠ n) (hbn : b ≠ n) :
    Reach (displace next p n f) a b := by
  have hpf : p ≠ f := by
    rintro rfl
    rw [hf] at hpn
    cases hpn
  -- the walk is followed from its head; a step into `n` becomes a step into `f`
  suffices hmain : Reach (Chain.displace next p n f) (if a = n then f else a) b by
    rwa [if_neg han] at hmain
  clear han
  induction h using Relation.ReflTransGen.head_induction_on with
  | refl => rw [if_neg hbn]; exact .refl
  | @head a c hs _ ih =>
    by_cases han : a = n
    · subst han
      rw [if_pos rfl]
      have hcn : c ≠ a := fun hca => hne (hu hpn (hca ▸ hs))
      rw [if_neg hcn] at ih
      exact .head (by rw [displace_fresh hnf]; exact hs) ih
    · rw [if_neg han]
      have haf : a ≠ f := by
        rintro rfl
        rw [hf] at hs
        cases hs
      by_cases hcn : c = n
      · subst hcn
        obtain rfl := hu hpn hs
        rw [if_pos rfl] at ih
        exact .head (displace_pred hne hpf) ih
      · rw [if_neg hcn] at ih
        have hap : a ≠ p := by
          rintro rfl
          rw [hpn] at hs
          exact hcn (Option.some.inj hs).symm
        exact .head (by rw [displace_ne hap han haf]; exact hs) ih

/-- A path that ended in `n` now ends in `f`. -/
theorem Reach.displace_to {a : ℕ} (h : Reach next a n) (han : a ≠ n) :
    Reach (Chain.displace next p n f) a f := by
  have hpf : p ≠ f := by
    rintro rfl
    rw [hf] at hpn
    cases hpn
  obtain ⟨q, hq, hqn⟩ := h.pred han
  obtain rfl := hu hpn hqn
  exact (hq.displace hu hpn hne hnf hf han hne).tail (displace_pred hne hpf)

end

theorem Grounded.displace (hg : Grounded next) (hu : PredUnique next)
    (hpn : next p = some n) (hne : p ≠ n) (hnf : n ≠ f) (hf : next f = none)
    (hp : NoPred next f) : Grounded (displace next p n f) := by
  have hpf : p ≠ f := by
    rintro rfl
    rw [hf] at hpn
    cases hpn
  have hold : ∀ {a : ℕ} {l : List ℕ}, ChainOf next a l → a ≠ f →
      ∃ l', ChainOf (Chain.displace next p n f) (if a = n then f else a) l' := by
    intro a l h
    induction h with
    | @last a hn =>
      intro haf
      by_cases han : a = n
      · subst han
        exact ⟨[f], by rw [if_pos rfl]; exact .last (by rw [displace_fresh hnf]; exact hn)⟩
      · have hap : a ≠ p := by
          rintro rfl
          rw [hpn] at hn
          cases hn
        exact ⟨[a], by rw [if_neg han]; exact .last (by rw [displace_ne hap han haf]; exact hn)⟩
    | @cons a b l hn _ ih =>
      intro haf
      obtain ⟨l', hl'⟩ := ih fun hbf => hp a (hbf ▸ hn)
      by_cases han : a = n
      · subst han
        have hbn : b ≠ a := fun hba => hne (hu hpn (hba ▸ hn))
        rw [if_neg hbn] at hl'
        exact ⟨_, by rw [if_pos rfl]; exact .cons (by rw [displace_fresh hnf]; exact hn) hl'⟩
      · rw [if_neg han]
        by_cases hap : a = p
        · subst hap
          rw [hpn] at hn
          cases hn
          rw [if_pos rfl] at hl'
          exact ⟨_, .cons (displace_pred hne hpf) hl'⟩
        · have hbn : b ≠ n := fun hbn => hap (hu (hbn ▸ hn) hpn)
          rw [if_neg hbn] at hl'
          exact ⟨_, .cons (by rw [displace_ne hap han haf]; exact hn) hl'⟩
  intro a
  by_cases han : a = n
  · subst han
    exact ⟨[a], .last displace_self⟩
  · by_cases haf : a = f
    · subst haf
      obtain ⟨l, hl⟩ := hg n
      obtain ⟨l', hl'⟩ := hold hl hnf
      rw [if_pos rfl] at hl'
      exact ⟨l', hl'⟩
    · obtain ⟨l, hl⟩ := hg a
      obtain ⟨l', hl'⟩ := hold hl haf
      rw [if_neg han] at hl'
      exact ⟨l', hl'⟩

theorem PredUnique.displace (hu : PredUnique next) (hpn : next p = some n) (hne : p ≠ n)
    (hnf : n ≠ f) (hf : next f = none) (hp : NoPred next f) :
    PredUnique (displace next p n f) := by
  have hpf : p ≠ f := by
    rintro rfl
    rw [hf] at hpn
    cases hpn
  intro a b c ha hb
  rcases displace_inv hnf hne hpf ha with ⟨rfl, rfl⟩ | ⟨rfl, hna⟩ | ⟨hap, han, hna⟩ <;>
    rcases displace_inv hnf hne hpf hb with ⟨rfl, hcf⟩ | ⟨rfl, hnb⟩ | ⟨hbp, hbn, hnb⟩
  · rfl
  · exact absurd hnb (hp _)
  · exact absurd hnb (hp _)
  · exact absurd (hcf ▸ hna) (hp _)
  · rfl
  · exact absurd (hu hna hnb).symm hbn
  · exact absurd (hcf ▸ hna) (hp _)
  · exact absurd (hu hna hnb) han
  · exact hu hna hnb

end displace

end Chain
