import Mathlib.Order.Compare
import Mathlib.Data.List.Basic

/-!
# Search trees

A tree whose keys are in order from left to right is searched by comparing the key that is
wanted with those on the way down. Any rearrangement that keeps the keys in their order
keeps what is found.
-/

namespace Lib

open List

/-- A binary tree of keys. -/
inductive SearchTree (κ : Type) where
  | leaf
  | node (left : SearchTree κ) (key : κ) (right : SearchTree κ)

namespace SearchTree

variable {κ : Type} {cmp : κ → κ → Ordering} {t : SearchTree κ} {x y : κ}

/-- The keys from left to right. -/
def inorder : SearchTree κ → List κ
  | leaf => []
  | node l k r => l.inorder ++ k :: r.inorder

/-- The search that goes down as `cut` says. -/
def find (cut : κ → Ordering) : SearchTree κ → Option κ
  | leaf => none
  | node l k r =>
    match cut k with
    | .lt => l.find cut
    | .gt => r.find cut
    | .eq => some k

/-- A new leaf where the search ends, unless it finds a key. -/
def insert (cut : κ → Ordering) (x : κ) : SearchTree κ → Option (SearchTree κ)
  | leaf => some (node leaf x leaf)
  | node l k r =>
    match cut k with
    | .lt => (l.insert cut x).map (node · k r)
    | .gt => (r.insert cut x).map (node l k ·)
    | .eq => none

/-- The keys are in order. -/
def Ordered (cmp : κ → κ → Ordering) (t : SearchTree κ) : Prop :=
  t.inorder.Pairwise (cmp · · = .lt)

theorem ordered_node {l r : SearchTree κ} {k : κ} : (node l k r).Ordered cmp ↔
    l.Ordered cmp ∧ r.Ordered cmp ∧ (∀ y ∈ l.inorder, cmp y k = .lt) ∧
      (∀ y ∈ r.inorder, cmp k y = .lt) ∧ ∀ y ∈ l.inorder, ∀ z ∈ r.inorder, cmp y z = .lt := by
  simp only [Ordered, inorder, pairwise_append, pairwise_cons, mem_cons]
  constructor
  · rintro ⟨hl, ⟨hk, hr⟩, hlr⟩
    exact ⟨hl, hr, fun y hy => hlr y hy k (.inl rfl), hk, fun y hy z hz => hlr y hy z (.inr hz)⟩
  · rintro ⟨hl, hr, hlk, hk, hlr⟩
    refine ⟨hl, ⟨hk, hr⟩, fun y hy z hz => ?_⟩
    rcases hz with rfl | hz
    · exact hlk y hy
    · exact hlr y hy z hz

section

variable [Std.TransCmp cmp] [Std.LawfulEqCmp cmp]

/-- Where a key that is less than that of the root can be. -/
theorem mem_left {l r : SearchTree κ} {k : κ} (h : (node l k r).Ordered cmp) (hlt : cmp x k = .lt) :
    x ∈ (node l k r).inorder ↔ x ∈ l.inorder := by
  obtain ⟨-, -, -, hr, -⟩ := ordered_node.mp h
  have hself : cmp x x = .eq := Std.ReflCmp.compare_self
  rw [inorder, mem_append, mem_cons]
  refine ⟨?_, .inl⟩
  rintro (hx | rfl | hx)
  · exact hx
  · exact nomatch hself.symm.trans hlt
  · rw [Std.OrientedCmp.gt_of_lt (hr x hx)] at hlt
    cases hlt

omit [Std.TransCmp cmp] in
/-- Where a key that is greater than that of the root can be. -/
theorem mem_right {l r : SearchTree κ} {k : κ} (h : (node l k r).Ordered cmp)
    (hgt : cmp x k = .gt) :
    x ∈ (node l k r).inorder ↔ x ∈ r.inorder := by
  obtain ⟨-, -, hl, -, -⟩ := ordered_node.mp h
  have hself : cmp x x = .eq := Std.ReflCmp.compare_self
  rw [inorder, mem_append, mem_cons]
  refine ⟨?_, fun hx => .inr (.inr hx)⟩
  rintro (hx | rfl | hx)
  · rw [hl x hx] at hgt
    cases hgt
  · exact nomatch hself.symm.trans hgt
  · exact hx

/-- **The search finds exactly the keys of the tree.** -/
theorem find_eq_some (h : t.Ordered cmp) : t.find (cmp x) = some y ↔ y = x ∧ x ∈ t.inorder := by
  induction t with
  | leaf => exact iff_of_false nofun fun hx => nomatch hx.2
  | node l k r ihl ihr =>
    obtain ⟨hl, hr, -⟩ := ordered_node.mp h
    rw [find]
    cases hcut : cmp x k with
    | lt => rw [mem_left h hcut, ← ihl hl]
    | gt => rw [mem_right h hcut, ← ihr hr]
    | eq =>
      obtain rfl := Std.LawfulEqCmp.eq_of_compare hcut
      rw [Option.some.injEq, eq_comm]
      refine (and_iff_left ?_).symm
      rw [inorder]
      exact mem_append_right _ mem_cons_self

theorem find_eq_none (h : t.Ordered cmp) : t.find (cmp x) = none ↔ x ∉ t.inorder := by
  rw [Option.eq_none_iff_forall_ne_some]
  constructor
  · exact fun hnone hx => hnone x ((find_eq_some h).mpr ⟨rfl, hx⟩)
  · exact fun hx y hy => hx ((find_eq_some h).mp hy).2

/-- **A new key is put to its place.** -/
theorem insert_of_not_mem (h : t.Ordered cmp) (hx : x ∉ t.inorder) :
    ∃ t', t.insert (cmp x) x = some t' ∧ t'.Ordered cmp ∧
      ∀ y, y ∈ t'.inorder ↔ y = x ∨ y ∈ t.inorder := by
  induction t with
  | leaf => exact ⟨node leaf x leaf, rfl, pairwise_singleton .., fun y => by simp [inorder]⟩
  | node l k r ihl ihr =>
    have hordered := ordered_node.mp h
    obtain ⟨hl, hr, hlk, hkr, hlr⟩ := hordered
    rw [insert]
    cases hcut : cmp x k with
    | lt =>
      obtain ⟨t', hins, ht', hmem⟩ := ihl hl ((mem_left h hcut).not.mp hx)
      refine ⟨node t' k r, by rw [hins, Option.map_some], ordered_node.mpr ⟨ht', hr, ?_, hkr, ?_⟩,
        ?_⟩
      · intro y hy
        rcases (hmem y).mp hy with rfl | hy
        · exact hcut
        · exact hlk y hy
      · intro y hy z hz
        rcases (hmem y).mp hy with rfl | hy
        · exact Std.TransCmp.lt_trans hcut (hkr z hz)
        · exact hlr y hy z hz
      · intro y
        rw [inorder, inorder, mem_append, mem_append, hmem, or_assoc]
    | gt =>
      obtain ⟨t', hins, ht', hmem⟩ := ihr hr ((mem_right h hcut).not.mp hx)
      have hlt : cmp k x = .lt := Std.OrientedCmp.lt_of_gt hcut
      refine ⟨node l k t', by rw [hins, Option.map_some], ordered_node.mpr ⟨hl, ht', hlk, ?_, ?_⟩,
        ?_⟩
      · intro y hy
        rcases (hmem y).mp hy with rfl | hy
        · exact hlt
        · exact hkr y hy
      · intro y hy z hz
        rcases (hmem z).mp hz with rfl | hz
        · exact Std.TransCmp.lt_trans (hlk y hy) hlt
        · exact hlr y hy z hz
      · intro y
        rw [inorder, inorder, mem_append, mem_append, mem_cons, mem_cons, hmem]
        tauto
    | eq =>
      obtain rfl := Std.LawfulEqCmp.eq_of_compare hcut
      exact absurd (mem_append_right _ mem_cons_self) hx

end

end SearchTree

end Lib
