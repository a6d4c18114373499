import Mathlib.Data.List.DropRight
import ReadingComment.Lib.CString

/-!
# Words and fields of a list

The words of a list are its longest parts without blanks; its fields are what is between the
separators. A field is read after the blanks at its two ends are trimmed.
-/

namespace Fields

open List

variable {α : Type} {p : α → Bool} {s w rest : List α} {c : α}

/-- The longest parts without an element that is `p`. -/
def words (p : α → Bool) (s : List α) : List (List α) := (s.splitOnP p).filter (! ·.isEmpty)

/-- A list without its blanks at both ends. -/
def trim (p : α → Bool) (s : List α) : List α := (s.dropWhile p).rdropWhile p

/-! ## Words -/

theorem words_nil (p : α → Bool) : words p [] = [] := rfl

theorem words_cons_pos (hc : p c = true) (s : List α) : words p (c :: s) = words p s := by
  rw [words, splitOnP_cons_eq_if_modifyHead, if_pos hc, filter_cons_of_neg (by simp), words]

theorem words_dropWhile (p : α → Bool) (s : List α) : words p (s.dropWhile p) = words p s := by
  induction s with
  | nil => rfl
  | cons c s ih =>
    by_cases hc : p c = true
    · rw [dropWhile_cons_of_pos hc, ih, words_cons_pos hc]
    · rw [dropWhile_cons_of_neg hc]

theorem words_append (hne : w ≠ []) (hw : ∀ c ∈ w, p c = false)
    (hrest : ∀ c ∈ rest.head?, p c = true) :
    words p (w ++ rest) = w :: words p rest := by
  have hkeep (ws : List (List α)) : (w :: ws).filter (! ·.isEmpty) = w :: ws.filter (! ·.isEmpty) :=
    filter_cons_of_pos (by simp [hne])
  cases rest with
  | nil =>
    rw [append_nil, words, splitOnP_eq_singleton hw, hkeep]
    rfl
  | cons c rest =>
    have hc : p c = true := hrest c rfl
    rw [words_cons_pos hc, words, splitOnP_append_cons_of_forall_mem hw c hc,
      hkeep, words]

theorem words_single (hne : w ≠ []) (hw : ∀ c ∈ w, p c = false) : words p w = [w] := by
  rw [words, splitOnP_eq_singleton hw, filter_cons_of_pos (by simp [hne]), filter_nil]

theorem words_cases (p : α → Bool) (s : List α) : (s.dropWhile p = [] ∧ words p s = []) ∨
    ∃ w rest, s.dropWhile p = w ++ rest ∧ w ≠ [] ∧ (∀ c ∈ w, p c = false) ∧
      (∀ c ∈ rest.head?, p c = true) ∧ words p s = w :: words p rest := by
  cases hs : s.dropWhile p with
  | nil => exact .inl ⟨rfl, by rw [← words_dropWhile, hs, words_nil]⟩
  | cons c cs =>
    have hc : p c = false := Lib.head_dropWhile p s c (by rw [hs]; rfl)
    have hw : ∀ d ∈ (c :: cs).takeWhile (! p ·), p d = false := fun d hd => by
      simpa using mem_takeWhile_imp hd
    have hne : (c :: cs).takeWhile (! p ·) ≠ [] := by
      rw [takeWhile_cons_of_pos (by rw [hc]; rfl)]
      exact cons_ne_nil _ _
    have hrest : ∀ d ∈ ((c :: cs).dropWhile (! p ·)).head?, p d = true := fun d hd => by
      simpa using Lib.head_dropWhile (! p ·) (c :: cs) d hd
    refine .inr ⟨_, _, takeWhile_append_dropWhile.symm, hne, hw, hrest, ?_⟩
    rw [← words_append hne hw hrest, takeWhile_append_dropWhile, ← hs, words_dropWhile]

theorem mem_words (p : α → Bool) (s : List α) : ∀ w ∈ words p s, w ≠ [] ∧ ∀ c ∈ w, p c = false := by
  induction hn : s.length using Nat.strong_induction_on generalizing s with
  | _ n ih =>
    rcases words_cases p s with ⟨-, hwords⟩ | ⟨w, rest, hdrop, hne, hw, -, hwords⟩ <;> rw [hwords]
    · exact fun _ h => absurd h not_mem_nil
    · have hshort : rest.length < s.length := calc
        rest.length < (w ++ rest).length := by
          rw [length_append]
          have := length_pos_iff.mpr hne
          omega
        _ ≤ s.length := hdrop ▸ (dropWhile_suffix p).length_le
      exact forall_mem_cons.mpr ⟨⟨hne, hw⟩, ih _ (hn ▸ hshort) rest rfl⟩

theorem forall_of_words_eq_nil (h : words p s = []) : ∀ c ∈ s, p c = true := by
  rcases words_cases p s with ⟨hnil, -⟩ | ⟨w, rest, -, -, -, -, hwords⟩
  · exact dropWhile_eq_nil_iff.mp hnil
  · rw [h] at hwords
    cases hwords

/-- A part at the end that does not have the separator is behind it. -/
theorem suffix_behind {s before behind : List α} (h : s <:+ before ++ c :: behind) (hc : c ∉ s) :
    s <:+ behind := by
  have hall : c :: behind <:+ before ++ c :: behind := suffix_append _ _
  rcases suffix_or_suffix_of_suffix h hall with hin | hover
  · rcases suffix_cons_iff.mp hin with rfl | hin
    · exact absurd (mem_cons_self ..) hc
    · exact hin
  · exact absurd (hover.subset (mem_cons_self ..)) hc

/-! ## Blanks at the end -/

theorem rdropWhile_append_blanks {blanks : List α} (h : ∀ c ∈ blanks, p c = true) (s : List α) :
    (s ++ blanks).rdropWhile p = s.rdropWhile p := by
  rw [List.rdropWhile, List.rdropWhile, reverse_append, dropWhile_append_of_pos]
  exact fun c hc => h c (mem_reverse.mp hc)

theorem rdropWhile_eq_self (h : ∀ c ∈ s.getLast?, p c = false) : s.rdropWhile p = s := by
  rw [rdropWhile_eq_self_iff]
  intro hne hlast
  rw [h _ (getLast?_eq_some_getLast hne)] at hlast
  cases hlast

theorem getLast_rdropWhile (p : α → Bool) (s : List α) :
    ∀ c ∈ (s.rdropWhile p).getLast?, p c = false := by
  intro c hc
  have hne : s.rdropWhile p ≠ [] := by
    intro hnil
    rw [hnil] at hc
    cases hc
  rw [getLast?_eq_some_getLast hne] at hc
  cases hc
  simpa using rdropWhile_last_not p s hne

theorem mem_rtakeWhile (p : α → Bool) (s : List α) : ∀ c ∈ s.rtakeWhile p, p c = true := fun _ =>
  mem_rtakeWhile_imp

/-- Blanks at the end of what is kept of a list are what its trimmed part has there. -/
theorem rdropWhile_take_eq_iff (p : α → Bool) (s : List α) (n : ℕ) :
    (s.take n).rdropWhile p = (s.rdropWhile p).take n ↔
      ∀ c ∈ ((s.rdropWhile p).take n).getLast?, p c = false := by
  have hs : s = s.rdropWhile p ++ s.rtakeWhile p := rdropWhile_append_rtakeWhile.symm
  have hblanks :
      ∀ c ∈ (s.rtakeWhile p).take (n - (s.rdropWhile p).length), p c = true := fun c hc =>
    mem_rtakeWhile p s c (mem_of_mem_take hc)
  have htake : (s.take n).rdropWhile p = ((s.rdropWhile p).take n).rdropWhile p := by
    conv_lhs => rw [hs, take_append, rdropWhile_append_blanks hblanks]
  rw [htake]
  exact ⟨fun h => h ▸ getLast_rdropWhile p _, rdropWhile_eq_self⟩

theorem trim_eq_nil_iff (p : α → Bool) (s : List α) : trim p s = [] ↔ s.dropWhile p = [] := by
  rw [trim, rdropWhile_eq_nil_iff]
  constructor
  · intro hall
    cases hs : s.dropWhile p with
    | nil => rfl
    | cons c cs =>
      have hc : p c = false := Lib.head_dropWhile p s c (by rw [hs]; rfl)
      rw [hall c (by rw [hs]; exact mem_cons_self ..)] at hc
      cases hc
  · intro hnil c hc
    rw [hnil] at hc
    cases hc

end Fields
