import Mathlib.Algebra.Order.Group.Int
import Mathlib.Data.List.Nodup
import Mathlib.Data.List.Pairwise
import Mathlib.Data.List.Perm.Subperm

/-!
# Reading a collection by position while it changes

The elements of a collection have positions. A reader asks for the next element at or behind a
position, and goes on behind that element; in between, others may change the collection in any way.
A `Reading` are the elements that a reader got, and the contents that the collection had meanwhile.

What was there all the time is read once; and a reader of a collection that only loses elements
comes to the end of it.
-/

namespace Cursor

open List

variable {α : Type} {key : α → ℤ}

/-- The element with the least position that is not before `pos`, if there is one. -/
def Next (key : α → ℤ) (els : List α) (pos : ℤ) : Option α → Prop
  | none => ∀ e ∈ els, key e < pos
  | some e => e ∈ els ∧ pos ≤ key e ∧ ∀ e' ∈ els, pos ≤ key e' → key e ≤ key e'

/-- The next element of an array that is in order: the first one that is not before the position. -/
theorem Next.of_sorted {els a : List α} {pos : ℤ} (hmem : ∀ e, e ∈ els ↔ e ∈ a)
    (hs : a.Pairwise fun x y => key x ≤ key y) {k : ℕ} (hbefore : ∀ e ∈ a.take k, key e < pos)
    (hbehind : ∀ e ∈ a.drop k, pos ≤ key e) : Next key els pos a[k]? := by
  have hsplit : ∀ e ∈ els, e ∈ a.take k ∨ e ∈ a.drop k := by
    intro e he
    rw [hmem, ← take_append_drop k a] at he
    exact mem_append.mp he
  cases hk : a[k]? with
  | none =>
    have hdrop : a.drop k = [] := drop_eq_nil_of_le (List.getElem?_eq_none_iff.mp hk)
    intro e he
    rcases hsplit e he with h | h
    · exact hbefore e h
    · rw [hdrop] at h
      cases h
  | some e =>
    obtain ⟨hlt, rfl⟩ := List.getElem?_eq_some_iff.mp hk
    have hcons := drop_eq_getElem_cons hlt
    have hhead : a[k] ∈ a.drop k := by
      rw [hcons]
      exact mem_cons_self
    refine ⟨(hmem _).mpr (mem_of_mem_drop hhead), hbehind _ hhead, fun e' he' hle => ?_⟩
    rcases hsplit e' he' with h | h
    · exact absurd (hbefore e' h) (not_lt.mpr hle)
    · rw [hcons] at h
      rcases mem_cons.mp h with rfl | h
      · exact le_rfl
      · have hdrop := hs.sublist (drop_sublist k a)
        rw [hcons] at hdrop
        exact (pairwise_cons.mp hdrop).1 e' h

/-- A reading from a position on: the contents of the collection since then, the last one first; the
position that was reached; and the elements that the reader got. -/
inductive Reading (key : α → ℤ) (els₀ : List α) (pos₀ : ℤ) : List (List α) → ℤ → List α → Prop where
  | start : Reading key els₀ pos₀ [els₀] pos₀ []
  | change {past : List (List α)} {pos : ℤ} {got : List α} (els : List α) :
    Reading key els₀ pos₀ past pos got → Reading key els₀ pos₀ (els :: past) pos got
  | read {els : List α} {past : List (List α)} {pos : ℤ} {got : List α} {e : α} :
    Reading key els₀ pos₀ (els :: past) pos got → Next key els pos (some e) →
    Reading key els₀ pos₀ (els :: past) (key e + 1) (got ++ [e])

namespace Reading

variable {els₀ : List α} {pos₀ pos : ℤ} {past : List (List α)} {got : List α}

section

variable (h : Reading key els₀ pos₀ past pos got)

include h

theorem got_lt : ∀ e ∈ got, key e < pos := by
  induction h with
  | start => exact fun _ he => nomatch he
  | change _ _ ih => exact ih
  | read _ hnext ih =>
    intro e' he'
    rcases mem_append.mp he' with he' | he'
    · exact (ih e' he').trans_le (hnext.2.1.trans (Int.le_add_one le_rfl))
    · obtain rfl := mem_singleton.mp he'
      exact Int.lt_add_one_iff.mpr le_rfl

/-- The elements come in the order of their positions, so none comes twice. -/
theorem increasing : (got.map key).Pairwise (· < ·) := by
  induction h with
  | start => exact List.Pairwise.nil
  | change _ _ ih => exact ih
  | read hread hnext ih =>
    rw [map_append, pairwise_append]
    refine ⟨ih, pairwise_singleton _ _, fun k hk k' hk' => ?_⟩
    obtain ⟨e', he', rfl⟩ := mem_map.mp hk
    obtain rfl := mem_singleton.mp hk'
    exact (hread.got_lt e' he').trans_le hnext.2.1

/-- **What was there all the time was read**, up to the position that was reached. -/
theorem complete (hkey : ∀ els ∈ past, (els.map key).Nodup) {e : α} (hstay : ∀ els ∈ past, e ∈ els)
    (hpos₀ : pos₀ ≤ key e) (hpos : key e < pos) : e ∈ got := by
  induction h with
  | start => exact absurd hpos (not_lt.mpr hpos₀)
  | change els _ ih =>
    exact ih (fun els' hels' => hkey els' (mem_cons_of_mem _ hels'))
      (fun els' hels' => hstay els' (mem_cons_of_mem _ hels')) hpos
  | @read els past pos got e' hread hnext ih =>
    rcases lt_or_ge (key e) pos with hlt | hge
    · exact mem_append_left _ (ih hkey hstay hlt)
    · -- it is not before the element that was read, and not behind it
      have hle := hnext.2.2 e (hstay els mem_cons_self) hge
      have heq : key e = key e' := le_antisymm (Int.lt_add_one_iff.mp hpos) hle
      rw [inj_on_of_nodup_map (hkey els mem_cons_self) (hstay els mem_cons_self)
        hnext.1 heq]
      exact mem_append_right _ (mem_singleton_self e')

end

/-- At the end everything was read that was there all the time. -/
theorem complete_at_end {els : List α} (h : Reading key els₀ pos₀ (els :: past) pos got)
    (hkey : ∀ els' ∈ els :: past, (els'.map key).Nodup) (hend : Next key els pos none) {e : α}
    (hstay : ∀ els' ∈ els :: past, e ∈ els') (hpos₀ : pos₀ ≤ key e) : e ∈ got :=
  h.complete hkey hstay hpos₀ (hend e (hstay els mem_cons_self))

theorem got_mem (h : Reading key els₀ pos₀ past pos got) : ∀ e ∈ got, ∃ els ∈ past, e ∈ els := by
  induction h with
  | start => exact fun _ he => nomatch he
  | change els _ ih =>
    intro e he
    obtain ⟨els', hels', hin⟩ := ih e he
    exact ⟨els', mem_cons_of_mem _ hels', hin⟩
  | @read els past pos got e' hread hnext ih =>
    intro e he
    rcases mem_append.mp he with he | he
    · exact ih e he
    · obtain rfl := mem_singleton.mp he
      exact ⟨els, mem_cons_self, hnext.1⟩

/-- **A collection that gets no new elements is read to its end**: it gives no more elements than it
had. -/
theorem length_le (h : Reading key els₀ pos₀ past pos got)
    (hsub : ∀ els ∈ past, ∀ e ∈ els, e ∈ els₀) : got.length ≤ els₀.length := by
  have hkeys : (got.map key).Nodup := h.increasing.imp fun hlt => ne_of_lt hlt
  refine ((hkeys.of_map key).subperm fun e he => ?_).length_le
  obtain ⟨els, hels, hin⟩ := h.got_mem e he
  exact hsub els hels e hin

end Reading

end Cursor
