import Mathlib.Data.List.Nodup

/-!
# Linked lists that start at a cell

A list of nodes is linked from a cell that holds the address of the first node; every
node has a cell with the address of the next one. The cells are `Option α`: `none` is
the one that the list starts at, `some a` that of the node `a`. In the cells, `none` is
the end of the list. With the same value for both, the nodes may also be linked in a
ring around a head.

A pointer to a cell is what a program uses that does not want to treat the first node
as a special case: `insert` puts a node behind such a pointer and `remove` takes away
the node that is behind it.
-/

namespace Lib

open Function List

variable {α : Type}

/-- What the cells hold is the list: at every place, the cell of the last node before it leads to
the first node behind it. -/
def Linked (next : Option α → Option α) (l : List α) : Prop :=
  ∀ a b, l = a ++ b → next a.getLast? = b.head?

namespace Linked

variable {next next' : Option α → Option α} {l : List α}

theorem head (h : Linked next l) : next none = l.head? := h [] l rfl

theorem nil (h : next none = none) : Linked next [] := by
  intro a b hab
  obtain ⟨rfl, rfl⟩ := append_eq_nil_iff.mp hab.symm
  exact h

variable {a b : List α} {x : α}

/-- The cell of a node leads to the node behind it. -/
theorem node (h : Linked next (a ++ x :: b)) :
    next (some x) = b.head? := by
  have hx : (a ++ [x]).getLast? = some x := getLast?_concat
  rw [← hx]
  exact h (a ++ [x]) b (by rw [append_assoc]; rfl)

theorem congr (h : Linked next l) (hnone : next' none = next none)
    (hsome : ∀ x ∈ l, next' (some x) = next (some x)) : Linked next' l := by
  intro a b hab
  rw [← h a b hab]
  rcases ha : a.getLast? with _ | x
  · exact hnone
  · refine hsome x ?_
    rw [hab]
    exact mem_append_left _ (mem_of_getLast? ha)

/-- The last node changes when nodes are put behind it. -/
theorem getLast?_ne {u c : List α} (hnodup : (u ++ c).Nodup) (hc : c ≠ []) :
    u.getLast? ≠ (u ++ c).getLast? := by
  obtain ⟨d, z, rfl⟩ := c.eq_nil_or_concat'.resolve_left hc
  rw [← append_assoc, getLast?_concat]
  intro hl
  exact (nodup_append.mp hnodup).2.2 z (mem_of_getLast? hl) z (by simp) rfl

variable [DecidableEq α]

/-- **A new node** behind a pointer to a cell. -/
theorem insert (h : Linked next (a ++ b)) (hx : x ∉ a ++ b) (hnodup : (a ++ b).Nodup) :
    Linked (update (update next (some x) (next a.getLast?)) a.getLast? (some x))
      (a ++ x :: b) := by
  have hlast : ∀ {c : List α}, c ⊆ a ++ b → c.getLast? ≠ some x := fun hc hcx =>
    hx (hc (mem_of_getLast? hcx))
  have hax : a.getLast? ≠ some x := hlast (subset_append_left a b)
  intro u v huv
  rcases append_eq_append_iff.mp huv with ⟨c, rfl, hc⟩ | ⟨c, rfl, rfl⟩
  · rcases c with _ | ⟨y, c⟩
    · -- the place before the new node
      rw [append_nil, update_self, ← nil_append v, ← hc]
      rfl
    · rw [cons_append] at hc
      cases hc
      have hrest := h (a ++ c) v (append_assoc ..).symm
      rcases c.eq_nil_or_concat' with rfl | ⟨c, z, rfl⟩
      · -- the place behind it
        rw [append_nil] at hrest
        rw [getLast?_concat, update_of_ne hax.symm, update_self, hrest]
      · have hz : (a ++ x :: (c ++ [z])).getLast? = (a ++ (c ++ [z])).getLast? := by
          rw [← cons_append, ← append_assoc, ← append_assoc, getLast?_concat,
            getLast?_concat]
        rw [← append_assoc] at hnodup
        rw [hz, update_of_ne (getLast?_ne hnodup.of_append_left (by simp)).symm,
          update_of_ne (hlast (by simp)), hrest]
  · rcases c with _ | ⟨y, c⟩
    · rw [append_nil, update_self]
      rfl
    · -- a place before that of the new node
      rw [update_of_ne (getLast?_ne hnodup.of_append_left (cons_ne_nil y c)),
        update_of_ne (hlast (by simp)), h u (y :: c ++ b) (append_assoc ..)]
      rfl

/-- **A node is taken away** from behind a pointer to a cell. -/
theorem remove (h : Linked next (a ++ x :: b)) (hnodup : (a ++ x :: b).Nodup) :
    Linked (update next a.getLast? (next (some x))) (a ++ b) := by
  have hnodup' : (a ++ b).Nodup := hnodup.sublist (by simp)
  intro u v huv
  rcases append_eq_append_iff.mp huv with ⟨c, rfl, rfl⟩ | ⟨c, rfl, rfl⟩
  · rcases c.eq_nil_or_concat' with rfl | ⟨c, z, rfl⟩
    · rw [append_nil, update_self]
      exact h.node
    · have hz : (a ++ (c ++ [z])).getLast? = (a ++ x :: c ++ [z]).getLast? := by
        rw [← append_assoc, getLast?_concat, getLast?_concat]
      rw [← append_assoc] at hnodup'
      rw [update_of_ne (getLast?_ne hnodup'.of_append_left (by simp)).symm, hz]
      exact h _ v (by simp)
  · rcases c with _ | ⟨y, c⟩
    · rw [append_nil, update_self, h.node]
      rfl
    · rw [update_of_ne (getLast?_ne hnodup.of_append_left (cons_ne_nil y c)),
        h u (y :: c ++ x :: b) (append_assoc ..)]
      rfl

theorem push (h : Linked next l) (hx : x ∉ l) (hnodup : l.Nodup) :
    Linked (update (update next (some x) (next none)) none (some x)) (x :: l) :=
  insert (a := []) h hx hnodup

theorem pop (h : Linked next (x :: l)) (hnodup : (x :: l).Nodup) :
    Linked (update next none (next (some x))) l :=
  remove (a := []) h hnodup

end Linked

/-- The nodes of the list in a ring around a head, in both directions. -/
structure Ringed (next prev : Option α → Option α) (l : List α) : Prop where
  next : Linked next l
  prev : Linked prev l.reverse

namespace Ringed

variable {next prev : Option α → Option α} {l : List α}

theorem nil (hn : next none = none) (hp : prev none = none) : Ringed next prev [] :=
  ⟨.nil hn, .nil hp⟩

theorem prev_node {a b : List α} {x : α} (h : Ringed next prev (a ++ x :: b)) :
    prev (some x) = a.getLast? := by
  have hprev : Linked prev (b.reverse ++ x :: a.reverse) := by
    have hprev := h.prev
    rwa [reverse_append, reverse_cons, append_assoc] at hprev
  rw [hprev.node, head?_reverse]

/-- What is before the node that the head leads to. -/
theorem prev_head (h : Ringed next prev l) : prev l.head? = none := by
  rw [← getLast?_reverse]
  exact h.prev l.reverse [] (append_nil _).symm

theorem congr {next' prev' : Option α → Option α} (h : Ringed next prev l)
    (hnone : next' none = next none ∧ prev' none = prev none)
    (hsome : ∀ x ∈ l, next' (some x) = next (some x) ∧ prev' (some x) = prev (some x)) :
    Ringed next' prev' l :=
  ⟨h.next.congr hnone.1 fun x hx => (hsome x hx).1,
    h.prev.congr hnone.2 fun x hx => (hsome x (mem_reverse.mp hx)).2⟩

variable [DecidableEq α]

/-- **A new node** right behind the head. -/
theorem push {x : α} (h : Ringed next prev l) (hx : x ∉ l) (hnodup : l.Nodup) :
    Ringed (update (update next (some x) (next none)) none (some x))
      (update (update prev (some x) none) (next none) (some x)) (x :: l) := by
  refine ⟨h.next.push hx hnodup, ?_⟩
  have hprev : Linked prev (l.reverse ++ []) := by
    rw [append_nil]
    exact h.prev
  have hnew := hprev.insert (x := x) (by simpa using hx) (by simpa using hnodup)
  rwa [getLast?_reverse, h.prev_head, ← h.next.head, ← reverse_cons] at hnew

/-- **A node is taken away** from between its neighbours. -/
theorem remove {a b : List α} {x : α} (h : Ringed next prev (a ++ x :: b))
    (hnodup : (a ++ x :: b).Nodup) :
    Ringed (update next (prev (some x)) (next (some x)))
      (update prev (next (some x)) (prev (some x))) (a ++ b) := by
  refine ⟨?_, ?_⟩
  · rw [h.prev_node]
    exact h.next.remove hnodup
  · have hprev : Linked prev (b.reverse ++ x :: a.reverse) := by
      have hprev := h.prev
      rwa [reverse_append, reverse_cons, append_assoc] at hprev
    have hrev : (b.reverse ++ x :: a.reverse).Nodup := by
      rw [← nodup_reverse] at hnodup
      rwa [reverse_append, reverse_cons, append_assoc] at hnodup
    rw [h.next.node, reverse_append, ← getLast?_reverse]
    exact hprev.remove hrev

end Ringed

end Lib
