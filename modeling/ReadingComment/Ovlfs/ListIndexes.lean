import ReadingComment.Ovlfs.ListRuns

/-!
# Alternate indexes of a list

An index that is up to date has the elements of the list in the order of its
comparison function. Insertions find the place by binary search, removals look for
the element among its equals and give the index up when it is at the very first
place, and everything else is left for the next use of the index.

Two operations do neither: `insert_at_end` and `clear_list` leave the indexes as
they are. So an index is what it should be in every run in which these two are
called when no index is up to date.
-/

namespace Ovlfs

open List Ordered

variable {ε : Type}

/-- An index of a list with the given elements. -/
structure Index.Good (els : List ε) (i : Index ε) : Prop where
  order : TotalPreorder i.compFunc
  entries : i.upToDate = true →
    els ≠ [] ∧ ∃ a, i.elements = some a ∧ a.Perm els ∧ Sorted i.compFunc a

variable {i : Index ε}

variable {els : List ε} {cmp : CompFunc ε}

theorem Index.Good.of_stale (ho : TotalPreorder i.compFunc) (hi : i.upToDate = false) :
    i.Good els := by
  refine ⟨ho, ?_⟩
  intro hup
  rw [hi] at hup
  cases hup

/-- An index of a list with `n` elements has an entry for each of them. -/
def Index.Sized (n : ℕ) (i : Index ε) : Prop :=
  i.upToDate = true → n ≠ 0 ∧ ∃ a, i.elements = some a ∧ a.length = n

theorem Index.Good.sized (h : i.Good els) : i.Sized els.length := by
  intro hup
  obtain ⟨hne, a, ha, hperm, -⟩ := h.entries hup
  exact ⟨fun hzero => hne (eq_nil_of_length_eq_zero hzero), a, ha, hperm.length_eq⟩

theorem Index.Sized.of_stale {n : ℕ} (hi : i.upToDate = false) : i.Sized n := by
  intro hup
  rw [hi] at hup
  cases hup

def AllGood (els : List ε) (is : List (Option (Index ε))) : Prop := ∀ i, some i ∈ is → i.Good els

theorem eachIndex_spec {P Q : Index ε → Prop} {f : ℕ → Index ε → Except Fault (Index ε)}
    (hf : ∀ id i, P i → ∃ i', f id i = .ok i' ∧ Q i') (id : ℕ) {is : List (Option (Index ε))}
    (h : ∀ i, some i ∈ is → P i) :
    ∃ is', eachIndex f id is = .ok is' ∧ ∀ i, some i ∈ is' → Q i := by
  induction is generalizing id with
  | nil =>
    refine ⟨[], rfl, ?_⟩
    intro i hi
    cases hi
  | cons x is ih =>
    obtain ⟨is', his, hq⟩ := ih (id + 1) fun i hi => h i (mem_cons_of_mem _ hi)
    cases x with
    | none =>
      refine ⟨none :: is', ?_, ?_⟩
      · rw [eachIndex, his]
        rfl
      · intro i hi
        rcases mem_cons.mp hi with heq | hi
        · cases heq
        · exact hq i hi
    | some i =>
      obtain ⟨i', hi', hqi⟩ := hf id i (h i (mem_cons_self ..))
      refine ⟨some i' :: is', ?_, ?_⟩
      · rw [eachIndex, hi']
        show (eachIndex f (id + 1) is >>= _) = _
        rw [his]
        rfl
      · intro j hj
        rcases mem_cons.mp hj with heq | hj
        · cases heq
          exact hqi
        · exact hq j hj

/-! ## An element more -/

theorem findInsertPos_spec (h : TotalPreorder cmp) {a : List ε} (ha : Sorted cmp a) (hne : a ≠ [])
    (pad : List ε) (v : ε) :
    ∃ pos, findInsertPos cmp a.length v (a ++ pad) = .ok pos ∧ pos ≤ a.length ∧
      Sorted cmp (a.take pos ++ v :: a.drop pos) := by
  have hlen : a.length ≤ (a ++ pad).length := by
    rw [length_append]
    exact Nat.le_add_right _ _
  have hat : ∀ i < a.length, (a ++ pad)[i]? = a[i]? := fun i hi => getElem?_append_left hi
  have hs : Sorted cmp ((a ++ pad).take a.length) := by
    rw [take_left]
    exact ha
  obtain ⟨c, x, pos, hbis, hc, hx, hpos, hlow, hhigh, -⟩ :=
    bisect_place h hlen (length_pos_of_ne_nil hne) hs v
  have hle : pos ≤ a.length := by
    rw [hpos]
    split <;> omega
  refine ⟨pos, ?_, hle, ?_⟩
  · rw [findInsertPos, hbis, hpos]
    rfl
  · have hsplit : Sorted cmp (a.take pos ++ a.drop pos) := by
      rw [take_append_drop]
      exact ha
    apply hsplit.insert
    · intro y hy
      rw [← h.nonneg_iff]
      obtain ⟨i, hi⟩ := mem_iff_getElem?.mp hy
      rw [getElem?_take] at hi
      split at hi
      · rename_i hip
        exact hlow i hip y ((hat i (by omega)).trans hi)
      · cases hi
    · intro y hy
      obtain ⟨i, hi⟩ := mem_iff_getElem?.mp hy
      rw [getElem?_drop] at hi
      have hin := (List.getElem?_eq_some_iff.mp hi).1
      exact hhigh (pos + i) (Nat.le_add_right _ _) hin y ((hat _ hin).trans hi)

theorem altIndexInsert_eq {a : List ε} {d e : ε} {pos : ℕ}
    (hpos : findInsertPos cmp a.length e (a ++ [d]) = .ok pos) (hle : pos ≤ a.length) :
    altIndexInsert a.length e ⟨cmp, false, true, some (a ++ [d])⟩ =
      .ok ⟨cmp, false, true, some (a.take pos ++ e :: a.drop pos)⟩ := by
  have hlen : (a ++ [d]).length = a.length + 1 := length_append
  simp only [altIndexInsert, hpos]
  rcases Nat.lt_or_eq_of_le hle with hlt | rfl
  · have htake : (a ++ [d]).take pos = a.take pos := take_append_of_le_length hle
    have hdrop : (a ++ [d]).drop (a.length + 1) = [] := drop_eq_nil_of_le (Nat.le_of_eq hlen)
    simp only [bind, Except.bind, if_pos hlt, hlen, Nat.lt_irrefl, take_left, htake, hdrop,
      append_nil]
    rfl
  · have hset : (a ++ [d]).set a.length e = a ++ [e] := by
      rw [set_append_right _ _ (Nat.le_refl _), Nat.sub_self]
      rfl
    simp only [bind, Except.bind, Nat.lt_irrefl, hlen, Nat.not_succ_le_self, hset,
      take_length, drop_length]
    rfl

section Update

variable [Inhabited ε]

omit [Inhabited ε] in
theorem findInsertPos_total (cmp : CompFunc ε) {a : List ε} (hne : a ≠ []) (pad : List ε) (v : ε) :
    ∃ pos, findInsertPos cmp a.length v (a ++ pad) = .ok pos ∧ pos ≤ a.length := by
  have hlen : a.length ≤ (a ++ pad).length := by
    rw [length_append]
    exact Nat.le_add_right _ _
  obtain ⟨c, d, hbis, hc⟩ := bisect_total (cmp v) hlen (length_pos_of_ne_nil hne)
    (Nat.le_refl _) (Nat.le_succ a.length)
  refine ⟨if 0 < d then c + 1 else c, ?_, ?_⟩
  · rw [findInsertPos, hbis]
    rfl
  · split <;> omega

theorem Index.Sized.insert_eq {i : Index ε} {n : ℕ} (h : i.Sized n) (granted : Bool) (e : ε) :
    ∃ i', (altIndexResize n (n + 1) granted i >>= altIndexInsert n e) = .ok i' ∧
      i'.compFunc = i.compFunc ∧
      (i'.upToDate = true → ∃ a pos, i.upToDate = true ∧ i.elements = some a ∧
        findInsertPos i.compFunc a.length e (a ++ [default]) = .ok pos ∧ pos ≤ a.length ∧
        i'.elements = some (a.take pos ++ e :: a.drop pos)) := by
  obtain ⟨cmp, lazyUpd, up, elements⟩ := i
  cases up with
  | false => exact ⟨_, rfl, rfl, nofun⟩
  | true =>
    obtain ⟨hn, a, ha, hlen⟩ := h rfl
    obtain rfl : elements = some a := ha
    cases lazyUpd with
    | true => exact ⟨⟨cmp, true, false, some a⟩, rfl, rfl, nofun⟩
    | false =>
      cases granted with
      | false => exact ⟨⟨cmp, false, false, none⟩, rfl, rfl, nofun⟩
      | true =>
        have hne : a ≠ [] := by
          rintro rfl
          exact hn hlen.symm
        obtain ⟨pos, hpos, hle⟩ := findInsertPos_total cmp hne [default] e
        have hresize : altIndexResize n (n + 1) true ⟨cmp, false, true, some a⟩ =
            .ok ⟨cmp, false, true, some (a ++ [default])⟩ := by
          have hmin : min n (n + 1) = a.length := by omega
          have hone : n + 1 - n = 1 := by omega
          simp only [altIndexResize, hmin, hone, Nat.lt_irrefl, take_length]
          rfl
        have hinsert : altIndexInsert n e ⟨cmp, false, true, some (a ++ [default])⟩ =
            .ok ⟨cmp, false, true, some (a.take pos ++ e :: a.drop pos)⟩ := by
          rw [← hlen]
          exact altIndexInsert_eq hpos hle
        refine ⟨⟨cmp, false, true, some (a.take pos ++ e :: a.drop pos)⟩, ?_, rfl, ?_⟩
        · rw [hresize]
          exact hinsert
        · exact fun _ => ⟨a, pos, rfl, rfl, hpos, hle, rfl⟩

theorem Index.Sized.insert {i : Index ε} {n : ℕ} (h : i.Sized n) (granted : Bool) (e : ε) :
    ∃ i', (altIndexResize n (n + 1) granted i >>= altIndexInsert n e) = .ok i' ∧
      i'.Sized (n + 1) := by
  obtain ⟨i', hres, -, hup⟩ := h.insert_eq granted e
  refine ⟨i', hres, ?_⟩
  intro hi'
  obtain ⟨a, pos, hi, ha, -, hle, ha'⟩ := hup hi'
  obtain ⟨-, b, hb, hlen⟩ := h hi
  obtain rfl := Option.some.inj (ha.symm.trans hb)
  refine ⟨Nat.succ_ne_zero n, _, ha', ?_⟩
  rw [length_append, length_cons, length_take, length_drop]
  omega

theorem Index.Good.insert {els : List ε} {i : Index ε} (h : i.Good els) {n : ℕ}
    (hn : n = els.length) (granted : Bool) (e : ε) :
    ∃ i', (altIndexResize n (n + 1) granted i >>= altIndexInsert n e) = .ok i' ∧
      i'.Good (e :: els) := by
  obtain ⟨i', hres, hcmp, hup⟩ := Index.Sized.insert_eq (hn ▸ h.sized) granted e
  refine ⟨i', hres, hcmp ▸ h.order, ?_⟩
  intro hi'
  obtain ⟨a, pos, hi, ha, hpos, -, ha'⟩ := hup hi'
  obtain ⟨hels, b, hb, hperm, hsorted⟩ := h.entries hi
  obtain rfl := Option.some.inj (ha.symm.trans hb)
  have hne : a ≠ [] := by
    rintro rfl
    exact hels (List.Perm.nil_eq hperm).symm
  obtain ⟨pos', hpos', -, hins⟩ := findInsertPos_spec h.order hsorted hne [default] e
  obtain rfl := Except.ok.inj (hpos.symm.trans hpos')
  refine ⟨cons_ne_nil _ _, _, ha', ?_, hcmp ▸ hins⟩
  refine perm_middle.trans (List.Perm.cons e ?_)
  rw [take_append_drop]
  exact hperm

theorem altIndexResize_less (cmp : CompFunc ε) {b : List ε} (hb : b ≠ []) (d : ε)
    (granted : Bool) :
    altIndexResize (b.length + 1) b.length granted ⟨cmp, false, true, some (b ++ [d])⟩ =
      .ok (if granted then ⟨cmp, false, true, some b⟩ else ⟨cmp, false, false, none⟩) := by
  have hnot : ¬ b.length = 0 := Nat.ne_of_gt (length_pos_of_ne_nil hb)
  cases granted with
  | false =>
    simp only [altIndexResize, if_neg hnot]
    rfl
  | true =>
    have hmin : min (b.length + 1) b.length = b.length := Nat.min_eq_right (Nat.le_succ _)
    have hle : ¬ (b ++ [d]).length < b.length := by
      rw [length_append]
      exact Nat.not_lt.mpr (Nat.le_add_right _ _)
    have hzero : b.length - (b.length + 1) = 0 := Nat.sub_eq_zero_of_le (Nat.le_succ _)
    simp only [altIndexResize, if_neg hnot, hmin, if_neg hle, take_left, hzero,
      replicate_zero, append_nil]
    rfl

end Update

/-! ## An element less -/

theorem bsearch_total (cmp : CompFunc ε) (v : ε) {a : List ε} (hne : a ≠ []) :
    ∃ r, bsearch cmp a.length v (some a) = .ok r ∧ ∀ c, r = some c → c < a.length := by
  have hpos := length_pos_of_ne_nil hne
  obtain ⟨c, d, hbis, hc⟩ := bisect_total (cmp v) (Nat.le_refl a.length) hpos (Nat.le_refl _)
    (Nat.le_succ a.length)
  have hres : bsearch cmp a.length v (some a) = .ok (if d = 0 then some c else none) := by
    rw [bsearch, if_neg (Nat.ne_of_gt hpos), hbis]
    rfl
  refine ⟨_, hres, ?_⟩
  intro c' hc'
  split at hc'
  · cases hc'
    exact hc
  · cases hc'

theorem eraseIdx_spec {cmp : CompFunc ε} {els els' a : List ε} {e : ε} {pos : ℕ}
    (hperm : a.Perm els)
    (hels : els.Perm (e :: els')) (hpos : 0 < pos) (hae : a[pos]? = some e) (hs : Sorted cmp a) :
    els' ≠ [] ∧ (a.eraseIdx pos).Perm els' ∧ Sorted cmp (a.eraseIdx pos) := by
  obtain ⟨hlt, hae⟩ := List.getElem?_eq_some_iff.mp hae
  have hperm' : (a.eraseIdx pos).Perm els' := by
    apply (perm_cons a[pos]).mp
    refine (getElem_cons_eraseIdx_perm hlt).trans ?_
    rw [hae]
    exact hperm.trans hels
  refine ⟨?_, hperm', List.Pairwise.sublist (eraseIdx_sublist a pos) hs⟩
  rintro rfl
  have hlen := congrArg List.length (List.Perm.eq_nil hperm')
  rw [length_eraseIdx_of_lt hlt, length_nil] at hlen
  omega

section Delete

variable [DecidableEq ε]

theorem removePosBefore_spec (cmp : CompFunc ε) (ele : ε) {a : List ε} {cur : ℕ}
    (hcur : cur < a.length) :
    ∃ pos, removePosBefore cmp ele a cur = .ok pos ∧ (pos = 0 ∨ a[pos]? = some ele) := by
  induction cur with
  | zero => exact ⟨0, rfl, .inl rfl⟩
  | succ cur ih =>
    obtain ⟨x, hx⟩ : ∃ x, a[cur + 1]? = some x := ⟨_, getElem?_eq_getElem hcur⟩
    have hread : removePosBefore cmp ele a (cur + 1) =
        if x = ele then .ok (cur + 1) else if cmp ele x ≠ 0 then .ok 0
          else removePosBefore cmp ele a cur := by
      rw [removePosBefore, hx]
      rfl
    rw [hread]
    split
    · rename_i heq
      exact ⟨cur + 1, rfl, .inr (heq ▸ hx)⟩
    · split
      · exact ⟨0, rfl, .inl rfl⟩
      · exact ih (Nat.lt_of_succ_lt hcur)

theorem removePosAfter_spec (cmp : CompFunc ε) (ele : ε) (a : List ε) (fuel cur : ℕ) :
    ∃ pos, removePosAfter cmp ele a a.length fuel cur = .ok pos ∧
      (pos = 0 ∨ a[pos]? = some ele) := by
  induction fuel generalizing cur with
  | zero => exact ⟨0, rfl, .inl rfl⟩
  | succ fuel ih =>
    rw [removePosAfter]
    split
    · rename_i hcur
      obtain ⟨x, hx⟩ : ∃ x, a[cur]? = some x := ⟨_, getElem?_eq_getElem hcur⟩
      rw [hx]
      show ∃ pos, (if x = ele then .ok cur else if cmp ele x ≠ 0 then .ok 0
        else removePosAfter cmp ele a a.length fuel (cur + 1)) = .ok pos ∧ _
      split
      · rename_i heq
        exact ⟨cur, rfl, .inr (heq ▸ hx)⟩
      · split
        · exact ⟨0, rfl, .inl rfl⟩
        · exact ih (cur + 1)
    · exact ⟨0, rfl, .inl rfl⟩

theorem findRemovePos_spec (cmp : CompFunc ε) (ele : ε) {a : List ε} (hne : a ≠ []) :
    ∃ pos, findRemovePos cmp a.length ele a = .ok pos ∧ (pos = 0 ∨ a[pos]? = some ele) := by
  obtain ⟨r, hr, hlt⟩ := bsearch_total cmp ele hne
  cases r with
  | none =>
    refine ⟨0, ?_, .inl rfl⟩
    rw [findRemovePos, hr]
    rfl
  | some c =>
    have hc := hlt c rfl
    obtain ⟨x, hx⟩ : ∃ x, a[c]? = some x := ⟨_, getElem?_eq_getElem hc⟩
    obtain ⟨p, hp, hpe⟩ := removePosBefore_spec cmp ele (Nat.lt_of_le_of_lt (Nat.sub_le c 1) hc)
    have hres : findRemovePos cmp a.length ele a = if x = ele then .ok c else
        if p ≠ 0 then .ok p else removePosAfter cmp ele a a.length a.length (c + 1) := by
      simp only [findRemovePos, hr, bind, Except.bind, hx, hp, readArr]
      rfl
    rw [hres]
    split
    · rename_i heq
      exact ⟨c, rfl, .inr (heq ▸ hx)⟩
    · split
      · exact ⟨p, rfl, hpe⟩
      · exact removePosAfter_spec cmp ele a _ _

variable [Inhabited ε]

theorem altIndexDelete_eq {cmp : CompFunc ε} {a : List ε} {e : ε} {pos : ℕ} (hpos0 : 0 < pos)
    (hpos : findRemovePos cmp a.length e a = .ok pos) :
    altIndexDelete a.length e ⟨cmp, false, true, some a⟩ =
      .ok ⟨cmp, false, true, some (a.eraseIdx pos ++ [default])⟩ := by
  have hnot : ¬ pos < 1 := Nat.not_lt.mpr hpos0
  simp only [altIndexDelete, hpos, bind, Except.bind, if_neg hnot, Nat.lt_irrefl,
    take_length, drop_length]
  rfl

/-- An index loses an element: it is taken out of the array at the place that is found, unless it is
the first one, and the array is resized. -/
theorem Index.Sized.delete_eq {i : Index ε} {n : ℕ} (h : i.Sized n) (granted : Bool) (e : ε) :
    ∃ i', (altIndexDelete n e i >>= altIndexResize n (n - 1) granted) = .ok i' ∧
      i'.compFunc = i.compFunc ∧
      (i'.upToDate = true → ∃ a pos, i.upToDate = true ∧ i.elements = some a ∧
        0 < pos ∧ a[pos]? = some e ∧ i'.elements = some (a.eraseIdx pos)) := by
  obtain ⟨cmp, lazyUpd, up, elements⟩ := i
  cases up with
  | false => exact ⟨_, rfl, rfl, nofun⟩
  | true =>
    obtain ⟨hn, a, ha, rfl⟩ := h rfl
    obtain rfl : elements = some a := ha
    cases lazyUpd with
    | true => exact ⟨⟨cmp, true, false, some a⟩, rfl, rfl, nofun⟩
    | false =>
      have hane : a ≠ [] := by
        rintro rfl
        exact hn rfl
      obtain ⟨pos, hpos, hat⟩ := findRemovePos_spec cmp e hane
      rcases Nat.eq_zero_or_pos pos with rfl | hpos0
      · refine ⟨⟨cmp, false, false, some a⟩, ?_, rfl, nofun⟩
        simp only [altIndexDelete, hpos]
        rfl
      · have hae := hat.resolve_left (Nat.ne_of_gt hpos0)
        have hlt := (List.getElem?_eq_some_iff.mp hae).1
        have hlen : a.length = (a.eraseIdx pos).length + 1 := by
          rw [length_eraseIdx_of_lt hlt]
          omega
        -- the place is not the first one, so another entry is left
        have hrest : a.eraseIdx pos ≠ [] := by
          apply ne_nil_of_length_pos
          omega
        have hres := altIndexResize_less cmp hrest default granted
        rw [← hlen] at hres
        refine ⟨if granted then ⟨cmp, false, true, some (a.eraseIdx pos)⟩
          else ⟨cmp, false, false, none⟩, ?_, ?_, ?_⟩
        · rw [altIndexDelete_eq hpos0 hpos, hlen, Nat.add_sub_cancel, ← hlen]
          exact hres
        · cases granted <;> rfl
        · cases granted with
          | false => exact nofun
          | true => exact fun _ => ⟨a, pos, rfl, rfl, hpos0, hae, rfl⟩

theorem Index.Sized.delete {i : Index ε} {n : ℕ} (h : i.Sized n) (granted : Bool) (e : ε) :
    ∃ i', (altIndexDelete n e i >>= altIndexResize n (n - 1) granted) = .ok i' ∧
      i'.Sized (n - 1) := by
  obtain ⟨i', hres, -, hup⟩ := h.delete_eq granted e
  refine ⟨i', hres, ?_⟩
  intro hi'
  obtain ⟨a, pos, hi, ha, hpos, hae, ha'⟩ := hup hi'
  obtain ⟨-, b, hb, hlen⟩ := h hi
  obtain rfl := Option.some.inj (ha.symm.trans hb)
  have hlt := (List.getElem?_eq_some_iff.mp hae).1
  refine ⟨by omega, _, ha', ?_⟩
  rw [length_eraseIdx_of_lt hlt, hlen]

theorem Index.Good.delete {els els' : List ε} {i : Index ε} (h : i.Good els) {n : ℕ}
    (hn : n = els.length) (granted : Bool) {e : ε} (hels : els.Perm (e :: els')) :
    ∃ i', (altIndexDelete n e i >>= altIndexResize n (n - 1) granted) = .ok i' ∧
      i'.Good els' := by
  obtain ⟨i', hres, hcmp, hup⟩ := Index.Sized.delete_eq (hn ▸ h.sized) granted e
  refine ⟨i', hres, hcmp ▸ h.order, ?_⟩
  intro hi'
  obtain ⟨a, pos, hi, ha, hpos, hae, ha'⟩ := hup hi'
  obtain ⟨-, b, hb, hperm, hsorted⟩ := h.entries hi
  obtain rfl := Option.some.inj (ha.symm.trans hb)
  obtain ⟨hne, hperm', hsorted'⟩ := eraseIdx_spec hperm hels hpos hae hsorted
  exact ⟨hne, _, ha', hperm', hcmp ▸ hsorted'⟩

end Delete

/-! ## Bringing an index up to date -/

def Index.Ready (els : List ε) (i : Index ε) : Prop :=
  (els = [] ∧ i.elements = none) ∨ ∃ a, i.elements = some a ∧ a.Perm els ∧ Sorted i.compFunc a

theorem bsearch_spec (h : TotalPreorder cmp) {a : List ε} (ha : Sorted cmp a) (v : ε) :
    ∃ r, bsearch cmp a.length v (some a) = .ok r ∧ (r.isSome = true ↔ ∃ x ∈ a, cmp v x = 0) := by
  rcases Nat.eq_zero_or_pos a.length with hzero | hpos
  · obtain rfl := eq_nil_of_length_eq_zero hzero
    refine ⟨none, rfl, ?_⟩
    simp only [Option.isSome_none, not_mem_nil, false_and, exists_false, Bool.false_eq_true]
  · have hs : Sorted cmp (a.take a.length) := by
      rw [take_length]
      exact ha
    obtain ⟨c, x, pos, hbis, hc, hx, -, -, -, hnone⟩ :=
      bisect_place h (Nat.le_refl a.length) hpos hs v
    have hres : bsearch cmp a.length v (some a) = .ok (if cmp v x = 0 then some c else none) := by
      rw [bsearch, if_neg (Nat.ne_of_gt hpos), hbis]
      rfl
    refine ⟨_, hres, ?_⟩
    split
    · rename_i heq
      exact ⟨fun _ => ⟨x, mem_of_getElem? hx, heq⟩, fun _ => rfl⟩
    · rename_i hne
      refine ⟨nofun, ?_⟩
      rintro ⟨y, hy, hy0⟩
      obtain ⟨i, hi⟩ := mem_iff_getElem?.mp hy
      exact absurd hy0 (hnone hne i (List.getElem?_eq_some_iff.mp hi).1 y hi)

section

variable {heap : Heap ε} {l : KList ε} {c : List (ℕ × ε)} (hl : Linked heap.node l.firstElement c)
  (hn : l.numberOfElements = c.length)

include hl hn

theorem updateAltIndex_eq (hne : l.numberOfElements ≠ 0) (i : Index ε) :
    updateAltIndex heap l true i = .ok ({ i with
      elements := some (ssort i.compFunc (l.numberOfElements - 1) (c.map Prod.snd)),
      upToDate := true }, true) := by
  have hlen : (c.map Prod.snd).length = l.numberOfElements := by rw [length_map, hn]
  have hmake : makeIndex heap l.numberOfElements l.firstElement = .ok (c.map Prod.snd) := by
    rw [hn]
    exact makeIndex_eq hl
  have hsort : ssortArr i.compFunc l.numberOfElements (c.map Prod.snd) =
      .ok (ssort i.compFunc (l.numberOfElements - 1) (c.map Prod.snd)) := by
    rw [← hlen]
    exact ssortArr_eq i.compFunc _
  rw [updateAltIndex, if_neg hne, if_pos rfl, hmake]
  show (ssortArr i.compFunc l.numberOfElements (c.map Prod.snd) >>= _) = _
  rw [hsort]
  rfl

theorem updateAltIndex_spec (granted : Bool) (ho : TotalPreorder i.compFunc)
    (hup : i.upToDate = false) :
    ∃ i' ok, updateAltIndex heap l granted i = .ok (i', ok) ∧ i'.Good (c.map Prod.snd) ∧
      i'.compFunc = i.compFunc ∧ (ok = true → i'.Ready (c.map Prod.snd)) ∧
      (ok = false → granted = false) := by
  by_cases hzero : l.numberOfElements = 0
  · have hc : c = [] := eq_nil_of_length_eq_zero (hn.symm.trans hzero)
    subst hc
    exact ⟨_, true, if_pos hzero, .of_stale ho hup, rfl, fun _ => .inl ⟨rfl, rfl⟩, nofun⟩
  · cases granted with
    | false => exact ⟨_, false, if_neg hzero, .of_stale ho hup, rfl, nofun, fun _ => rfl⟩
    | true =>
      have hlen : (c.map Prod.snd).length = l.numberOfElements := by rw [length_map, hn]
      obtain ⟨hperm, hsorted⟩ := ssort_spec ho (l := c.map Prod.snd)
        (n := l.numberOfElements - 1) (by omega)
      refine ⟨_, true, updateAltIndex_eq hl hn hzero i, ⟨ho, fun _ => ⟨?_, _, rfl, hperm, hsorted⟩⟩,
        rfl, fun _ => .inr ⟨_, rfl, hperm, hsorted⟩, nofun⟩
      rintro hnil
      rw [hnil] at hlen
      exact hzero hlen.symm

end

def Mem.withIndexes (m : Mem ε) (is : List (Option (Index ε))) : Mem ε :=
  { m with list := { m.list with indexes := is } }

theorem AllGood.set {is : List (Option (Index ε))} (h : AllGood els is) (k : ℕ)
    {x : Option (Index ε)} (hx : ∀ i, x = some i → i.Good els) : AllGood els (is.set k x) := by
  intro i hi
  rcases mem_or_eq_of_mem_set hi with hi | heq
  · exact h i hi
  · exact hx i heq.symm

theorem KList.mem_of_index? {l : KList ε} {id : ℤ} (h : l.index? id = some i) :
    some i ∈ l.indexes := by
  rw [KList.index?] at h
  split at h
  · cases h
  · exact mem_of_getElem? (Option.join_eq_some_iff.mp h)

section Indexes

variable {m : Mem ε} {c : List (ℕ × ε)}

/-- The chain of the list, and its alternate indexes. -/
structure Mem.Indexed (m : Mem ε) (c : List (ℕ × ε)) : Prop where
  linked : Linked m.heap.node m.list.firstElement c
  count : m.list.numberOfElements = c.length
  good : AllGood (c.map Prod.snd) m.list.indexes

section

variable (h : m.Indexed c)

include h

theorem refresh_spec (g : Grant ε) {id : ℤ} {i : Index ε} (hi : m.list.index? id = some i) :
    ∃ is i' ok, refresh m g id i = .ok (m.withIndexes is, i', ok) ∧
      AllGood (c.map Prod.snd) is ∧ i'.compFunc = i.compFunc ∧
      (ok = true → i'.Ready (c.map Prod.snd)) ∧ (ok = false → g.table id.toNat = false) := by
  have hgood := h.good i (KList.mem_of_index? hi)
  rw [refresh]
  split
  · rename_i hup
    obtain ⟨-, a, ha⟩ := hgood.entries hup
    exact ⟨m.list.indexes, i, true, rfl, h.good, rfl, fun _ => .inr ⟨a, ha⟩, nofun⟩
  · rename_i hup
    obtain ⟨i', ok, hres, hgood', hcmp, hready, htable⟩ := updateAltIndex_spec h.linked h.count
      (g.table id.toNat) hgood.order (Bool.eq_false_of_not_eq_true hup)
    refine ⟨m.list.indexes.set (id.toNat - 1) (some i'), i', ok, ?_, ?_, hcmp, hready, htable⟩
    · rw [hres]
      rfl
    · apply h.good.set
      rintro j heq
      cases heq
      exact hgood'

theorem readIndex_spec (g : Grant ε) (id nth : ℤ) :
    ∃ is r, readIndex m g id nth = .ok (m.withIndexes is, r) ∧ AllGood (c.map Prod.snd) is ∧
      ∀ e, r = .ok e → e ∈ c.map Prod.snd := by
  rw [readIndex]
  split
  · exact ⟨m.list.indexes, _, rfl, h.good, nofun⟩
  · rename_i hnth
    cases hi : m.list.index? id with
    | none => exact ⟨m.list.indexes, _, rfl, h.good, nofun⟩
    | some i =>
      obtain ⟨is, i', ok, hres, hgood, -, hready, -⟩ := refresh_spec h g hi
      simp only [hres, bind, Except.bind]
      cases ok with
      | false => exact ⟨is, _, rfl, hgood, nofun⟩
      | true =>
        have hlen : (c.map Prod.snd).length = m.list.numberOfElements := by
          rw [length_map, h.count]
        rcases hready rfl with ⟨hnil, -⟩ | ⟨a, ha, hperm, -⟩
        · -- an empty list has no element to read
          rw [hnil] at hlen
          rw [← hlen] at hnth
          simp only [length_nil] at hnth
          omega
        · have hin : nth.toNat - 1 < a.length := by
            rw [hperm.length_eq, hlen]
            omega
          have hread : a[nth.toNat - 1]? = some (a.get ⟨_, hin⟩) := getElem?_eq_getElem hin
          refine ⟨is, .ok (a.get ⟨_, hin⟩), ?_, hgood, ?_⟩
          · simp only [ha, readArr, hread]
            rfl
          · intro e he
            cases he
            exact hperm.mem_iff.mp (get_mem _ _)

theorem addIndex_spec (g : Grant ε) {cb : CompFunc ε} (hcb : TotalPreorder cb) (lazyUpd : Bool) :
    ∃ is r, addIndex m g cb lazyUpd = .ok (m.withIndexes is, r) ∧
      AllGood (c.map Prod.snd) is := by
  -- the list with a slot for the new index
  obtain ⟨is, hl, his⟩ : ∃ is, (if freeSlot 1 m.list.indexes ≤ m.list.indexes.length then m.list
      else { m.list with indexes := m.list.indexes ++ [none] }) = (m.withIndexes is).list ∧
      AllGood (c.map Prod.snd) is := by
    split
    · exact ⟨m.list.indexes, rfl, h.good⟩
    · refine ⟨m.list.indexes ++ [none], rfl, ?_⟩
      intro i hi
      rcases mem_append.mp hi with hi | hi
      · exact h.good i hi
      · cases mem_singleton.mp hi
  simp only [addIndex, hl]
  split
  · exact ⟨m.list.indexes, _, rfl, h.good⟩
  · split
    · obtain ⟨i, ok, hres, hgood, -⟩ := updateAltIndex_spec (l := (m.withIndexes is).list)
        (i := ⟨cb, lazyUpd, false, none⟩) h.linked h.count (g.table (freeSlot 1 m.list.indexes))
        hcb rfl
      rw [hres]
      refine ⟨_, _, rfl, his.set _ ?_⟩
      intro j heq
      cases heq
      exact hgood
    · exact ⟨is, _, rfl, his⟩

theorem dropIndex_spec (id : ℤ) :
    ∃ is r, dropIndex m id = (m.withIndexes is, r) ∧ AllGood (c.map Prod.snd) is := by
  rw [dropIndex]
  split
  · exact ⟨m.list.indexes, _, rfl, h.good⟩
  · exact ⟨_, _, rfl, h.good.set _ nofun⟩

theorem changeIndexSort_spec (g : Grant ε) (id : ℤ) {newCb : CompFunc ε}
    (hcb : TotalPreorder newCb) :
    ∃ is r, changeIndexSort m g id newCb = .ok (m.withIndexes is, r) ∧
      AllGood (c.map Prod.snd) is := by
  rw [changeIndexSort]
  split
  · exact ⟨m.list.indexes, _, rfl, h.good⟩
  · rename_i i _
    simp only
    split
    · refine ⟨_, _, rfl, h.good.set _ ?_⟩
      intro j heq
      cases heq
      exact .of_stale hcb rfl
    · obtain ⟨i', ok, hres, hgood, -⟩ := updateAltIndex_spec
        (i := { i with upToDate := false, compFunc := newCb }) h.linked h.count
        (g.table id.toNat) hcb rfl
      rw [hres]
      refine ⟨_, _, rfl, h.good.set _ ?_⟩
      intro j heq
      cases heq
      exact hgood

theorem searchIndex_spec (g : Grant ε) {id : ℤ} (data : ε) {i : Index ε}
    (hi : m.list.index? id = some i) :
    ∃ is r, searchIndex m g id data = .ok (m.withIndexes is, r) ∧ AllGood (c.map Prod.snd) is ∧
      (r = .error .enomem → g.table id.toNat = false) ∧
      (r ≠ .error .enomem →
        ((∃ pos, r = .ok pos) ↔ ∃ e ∈ c.map Prod.snd, i.compFunc data e = 0)) := by
  have horder := (h.good i (KList.mem_of_index? hi)).order
  obtain ⟨is, i', ok, hres, hgood, hcmp, hready, htable⟩ := refresh_spec h g hi
  simp only [searchIndex, hi, hres, bind, Except.bind]
  cases ok with
  | false => exact ⟨is, .error .enomem, rfl, hgood, fun _ => htable rfl, fun hne => absurd rfl hne⟩
  | true =>
    have hlen : (c.map Prod.snd).length = m.list.numberOfElements := by
      rw [length_map, h.count]
    obtain ⟨r, hr, hiff⟩ : ∃ r, bsearch i'.compFunc (m.withIndexes is).list.numberOfElements data
        i'.elements = .ok r ∧
        (r.isSome = true ↔ ∃ e ∈ c.map Prod.snd, i.compFunc data e = 0) := by
      rcases hready rfl with ⟨hnil, hnone⟩ | ⟨a, ha, hperm, hsorted⟩
      · refine ⟨none, ?_, ?_⟩
        · rw [hnone]
          rfl
        · rw [hnil]
          simp only [Option.isSome_none, not_mem_nil, false_and, exists_false,
            Bool.false_eq_true]
      · rw [hcmp] at hsorted ⊢
        obtain ⟨r, hr, hiff⟩ := bsearch_spec horder hsorted data
        refine ⟨r, ?_, ?_⟩
        · rw [ha, ← hr, hperm.length_eq, hlen]
          rfl
        · rw [hiff]
          simp only [hperm.mem_iff]
    cases r with
    | none =>
      refine ⟨is, .error .enoent, ?_, hgood, nofun, fun _ => ?_⟩
      · simp only [hr]
        rfl
      · rw [← hiff]
        exact ⟨nofun, nofun⟩
    | some pos =>
      refine ⟨is, .ok (pos + 1), ?_, hgood, nofun, fun _ => ?_⟩
      · simp only [hr]
        rfl
      · rw [← hiff]
        exact ⟨fun _ => rfl, fun _ => ⟨pos + 1, rfl⟩⟩

end

end Indexes

/-! ## Indexes whose order is not known -/

section Sized

variable {m : Mem ε} {c : List (ℕ × ε)}

/-- The chain of the list, and alternate indexes with an entry for each of its elements. -/
structure Mem.SizedIndexes (m : Mem ε) (c : List (ℕ × ε)) : Prop where
  linked : Linked m.heap.node m.list.firstElement c
  count : m.list.numberOfElements = c.length
  sized : ∀ i, some i ∈ m.list.indexes → i.Sized m.list.numberOfElements

/-- The array of an index that was brought up to date has an entry for each element. -/
def Index.Complete (n : ℕ) (i : Index ε) : Prop :=
  (n = 0 ∧ i.elements = none) ∨ ∃ a, i.elements = some a ∧ a.length = n

theorem updateAltIndex_sized {heap : Heap ε} {l : KList ε}
    (hl : Linked heap.node l.firstElement c) (hn : l.numberOfElements = c.length)
    (granted : Bool) {i : Index ε} (hup : i.upToDate = false) :
    ∃ i' ok, updateAltIndex heap l granted i = .ok (i', ok) ∧ i'.Sized l.numberOfElements ∧
      (ok = true → i'.Complete l.numberOfElements) := by
  by_cases hzero : l.numberOfElements = 0
  · exact ⟨_, true, if_pos hzero, .of_stale hup, fun _ => .inl ⟨hzero, rfl⟩⟩
  · cases granted with
    | false => exact ⟨_, false, if_neg hzero, .of_stale hup, nofun⟩
    | true =>
      have hlen : (ssort i.compFunc (l.numberOfElements - 1) (c.map Prod.snd)).length =
          l.numberOfElements := by rw [length_ssort, length_map, hn]
      exact ⟨_, true, updateAltIndex_eq hl hn hzero i, fun _ => ⟨hzero, _, rfl, hlen⟩,
        fun _ => .inr ⟨_, rfl, hlen⟩⟩

theorem refresh_sized (h : m.SizedIndexes c) (g : Grant ε) {id : ℤ} {i : Index ε}
    (hi : m.list.index? id = some i) :
    ∃ is i' ok, refresh m g id i = .ok (m.withIndexes is, i', ok) ∧
      (∀ j, some j ∈ is → j.Sized m.list.numberOfElements) ∧
      (ok = true → i'.Complete m.list.numberOfElements) := by
  rw [refresh]
  split
  · rename_i hup
    obtain ⟨-, a, ha⟩ := h.sized i (KList.mem_of_index? hi) hup
    exact ⟨m.list.indexes, i, true, rfl, h.sized, fun _ => .inr ⟨a, ha⟩⟩
  · rename_i hup
    obtain ⟨i', ok, hres, hsized, hcomplete⟩ := updateAltIndex_sized h.linked h.count
      (g.table id.toNat) (Bool.eq_false_of_not_eq_true hup)
    refine ⟨m.list.indexes.set (id.toNat - 1) (some i'), i', ok, ?_, ?_, hcomplete⟩
    · rw [hres]
      rfl
    · intro j hj
      rcases mem_or_eq_of_mem_set hj with hj | heq
      · exact h.sized j hj
      · cases heq
        exact hsized

theorem readIndex_sized (h : m.SizedIndexes c) (g : Grant ε) (id nth : ℤ) :
    ∃ is r, readIndex m g id nth = .ok (m.withIndexes is, r) ∧
      ∀ j, some j ∈ is → j.Sized m.list.numberOfElements := by
  rw [readIndex]
  split
  · exact ⟨m.list.indexes, _, rfl, h.sized⟩
  · rename_i hnth
    cases hi : m.list.index? id with
    | none => exact ⟨m.list.indexes, _, rfl, h.sized⟩
    | some i =>
      obtain ⟨is, i', ok, hres, hsized, hcomplete⟩ := refresh_sized h g hi
      simp only [hres, bind, Except.bind]
      cases ok with
      | false => exact ⟨is, _, rfl, hsized⟩
      | true =>
        rcases hcomplete rfl with ⟨hzero, -⟩ | ⟨a, ha, hlen⟩
        · -- an empty list has no element to read
          omega
        · have hin : nth.toNat - 1 < a.length := by omega
          have hread : a[nth.toNat - 1]? = some (a.get ⟨_, hin⟩) := getElem?_eq_getElem hin
          refine ⟨is, .ok (a.get ⟨_, hin⟩), ?_, hsized⟩
          simp only [ha, readArr, hread]
          rfl

theorem searchIndex_sized (h : m.SizedIndexes c) (g : Grant ε) (id : ℤ) (data : ε) :
    ∃ is r, searchIndex m g id data = .ok (m.withIndexes is, r) ∧
      ∀ j, some j ∈ is → j.Sized m.list.numberOfElements := by
  rw [searchIndex]
  cases hi : m.list.index? id with
  | none => exact ⟨m.list.indexes, _, rfl, h.sized⟩
  | some i =>
    obtain ⟨is, i', ok, hres, hsized, hcomplete⟩ := refresh_sized h g hi
    simp only [hres, bind, Except.bind]
    cases ok with
    | false => exact ⟨is, _, rfl, hsized⟩
    | true =>
      obtain ⟨r, hr⟩ : ∃ r, bsearch i'.compFunc (m.withIndexes is).list.numberOfElements data
          i'.elements = .ok r := by
        rcases hcomplete rfl with ⟨-, hnone⟩ | ⟨a, ha, hlen⟩
        · rw [hnone]
          exact ⟨none, rfl⟩
        · rw [ha, show (m.withIndexes is).list.numberOfElements = a.length from hlen.symm]
          rcases eq_or_ne a [] with rfl | hne
          · exact ⟨none, rfl⟩
          · obtain ⟨r, hr, -⟩ := bsearch_total i'.compFunc data hne
            exact ⟨r, hr⟩
      cases r with
      | none => exact ⟨is, .error .enoent, by simp only [hr]; rfl, hsized⟩
      | some pos => exact ⟨is, .ok (pos + 1), by simp only [hr]; rfl, hsized⟩

section

variable {is : List (Option (Index ε))} {n : ℕ} (h : ∀ i, some i ∈ is → i.Sized n) (g : Grant ε)
  (e : ε)

include h g e

theorem insertIndexes_sized [Inhabited ε] :
    ∃ is', insertIndexes n g e is = .ok is' ∧ ∀ i, some i ∈ is' → i.Sized (n + 1) :=
  eachIndex_spec (fun id _ hi => Index.Sized.insert hi (g.table id) e) 1 h

theorem deleteIndexes_sized [Inhabited ε] [DecidableEq ε] :
    ∃ is', deleteIndexes n g e is = .ok is' ∧ ∀ i, some i ∈ is' → i.Sized (n - 1) :=
  eachIndex_spec (fun id _ hi => Index.Sized.delete hi (g.table id) e) 1 h

end

end Sized

/-! ## Indexes over runs -/

section Runs

/-- The operations that alternate indexes know of, with comparison functions that are total
preorders. -/
def Call.Ordered : Call ε → Prop
  | .insertMany _ => False
  | .addIndex cb _ => TotalPreorder cb
  | .changeIndexSort _ newCb => TotalPreorder newCb
  | _ => True

def World.elements (w : World ε) : List ε := w.content.map Prod.fst

/-- **The alternate indexes are coherent**: one that is up to date has an entry for each element of
the list, and the entries are in order. -/
def World.Coherent (w : World ε) : Prop :=
  ∀ i, some i ∈ w.mem.list.indexes → i.upToDate = true →
    ∃ a, i.elements = some a ∧ a.length = w.mem.list.numberOfElements ∧ a.Perm w.elements ∧
      Sorted i.compFunc a

def KList.NoneUpToDate (l : KList ε) : Prop := ∀ i, some i ∈ l.indexes → i.upToDate = false

/-- The condition on calls under which the indexes stay coherent. -/
def World.FitsIndexes (w : World ε) (a : Grant ε × Call ε) : Prop :=
  match a.2 with
  | .insertAtEnd _ => a.1.node = true → w.mem.list.NoneUpToDate ∧
      (w.mem.list.lastElement ≠ none ∨ w.mem.list.firstElement = none)
  | .clearList => w.mem.list.NoneUpToDate ∧ w.Clears a.1
  | .removeElement _ => w.mem.list.Searches
  | _ => True

/-- The invariant of runs with alternate indexes. -/
structure World.Indexed (w : World ε) (c : List (ℕ × ε)) : Prop where
  holds : w.Holds c
  last : w.LastKnown c
  alone : ∀ x ∈ w.content, x.2 = true
  good : AllGood (c.map Prod.snd) w.mem.list.indexes

variable {w w' : World ε} {c c' : List (ℕ × ε)} {a : Grant ε × Call ε}

namespace World.Indexed

theorem mem (h : w.Indexed c) : w.mem.Indexed c :=
  ⟨h.holds.linked, h.holds.count, h.good⟩

theorem coherent (h : w.Indexed c) : w.Coherent := by
  intro i hi hup
  obtain ⟨-, a, ha, hperm, hsorted⟩ := (h.good i hi).entries hup
  refine ⟨a, ha, ?_, ?_, hsorted⟩
  · rw [hperm.length_eq, length_map, h.holds.count]
  · rw [World.elements, ← h.holds.elements]
    exact hperm

theorem length_eq (h : w.Indexed c) : (c.map Prod.snd).length = w.mem.list.numberOfElements := by
  rw [length_map, h.holds.count]

theorem safe (h : w.Indexed c) (hord : a.2.Ordered) (hfits : w.FitsIndexes a) : w.Safe a := by
  obtain ⟨g, call⟩ := a
  cases call with
  | insertAtEnd e => exact fun hg => (hfits hg).2
  | insertMany es => exact hord.elim
  | removeElement v =>
    refine ⟨hfits, ?_⟩
    intro f _ x hx
    exact h.alone x (mem_of_find?_eq_some hx)
  | removeNth n => exact fun x _ hx => h.alone x (mem_of_getElem? hx)
  | clearList => exact hfits.2
  | _ => trivial

theorem withIndexes (h : w.Indexed c) {is : List (Option (Index ε))}
    (hgood : AllGood (c.map Prod.snd) is) :
    World.Indexed ⟨w.mem.withIndexes is, w.content⟩ c :=
  ⟨⟨h.holds.linked, h.holds.count, h.holds.items, h.holds.primary.entries, h.holds.primary.compare⟩,
    h.last, h.alone, hgood⟩

end World.Indexed

theorem content_alone {search : Option (CompFunc ε)} {g : Grant ε} {items : List (Item ε)}
    (h : ∀ x ∈ items, x.2 = true) {call : Call ε} (hcall : call.Ordered) :
    ∀ x ∈ call.content search g items, x.2 = true := by
  have hone : ∀ e, ∀ x ∈ (e, true) :: items, x.2 = true := by
    intro e x hx
    rcases mem_cons.mp hx with rfl | hx
    · rfl
    · exact h x hx
  intro x hx
  cases call with
  | insertMany es => exact hcall.elim
  | insertIntoList e | insertIntoListSorted e =>
    rw [Call.content] at hx
    split at hx
    · exact hone e x hx
    · exact h x hx
  | insertAtEnd e =>
    rw [Call.content] at hx
    split at hx
    · exact hone e x (perm_append_singleton _ _ |>.mem_iff.mp hx)
    · exact h x hx
  | removeElement v =>
    cases search with
    | none => exact h x hx
    | some f => exact h x (mem_of_mem_eraseP hx)
  | removeNth n =>
    rw [Call.content] at hx
    split at hx
    · exact h x hx
    · exact h x (mem_of_mem_eraseIdx hx)
  | clearList => cases hx
  | _ => exact h x hx

theorem AllGood.of_stale {els els' : List ε} {l : KList ε} (h : AllGood els l.indexes)
    (hl : l.NoneUpToDate) : AllGood els' l.indexes :=
  fun i hi => .of_stale (h i hi).order (hl i hi)

theorem perm_split (c₁ c₂ : List (ℕ × ε)) (q : ℕ) (e : ε) :
    ((c₁ ++ (q, e) :: c₂).map Prod.snd).Perm (e :: (c₁ ++ c₂).map Prod.snd) :=
  perm_middle.map Prod.snd

variable [Inhabited ε]

theorem AllGood.insert {els : List ε} {is : List (Option (Index ε))} (h : AllGood els is)
    (g : Grant ε) (e : ε) :
    ∃ is', insertIndexes els.length g e is = .ok is' ∧ AllGood (e :: els) is' :=
  eachIndex_spec (fun id _ hi => Index.Good.insert hi rfl (g.table id) e) 1 h

variable [DecidableEq ε]

theorem AllGood.delete {els els' : List ε} {is : List (Option (Index ε))} (h : AllGood els is)
    (g : Grant ε) {e : ε} (hels : els.Perm (e :: els')) :
    ∃ is', deleteIndexes els.length g e is = .ok is' ∧ AllGood els' is' :=
  eachIndex_spec (fun id _ hi => Index.Good.delete hi rfl (g.table id) hels) 1 h

theorem content_of_call (h : w.call a = .ok w') :
    w'.content = a.2.content w.mem.list.searchFunc a.1 w.content := by
  rw [World.call] at h
  cases hrun : a.2.run w.mem a.1 with
  | error e =>
    rw [hrun] at h
    cases h
  | ok m =>
    rw [hrun] at h
    cases h
    rfl

namespace World.Indexed

theorem indexesRun (h : w.Indexed c) (g : Grant ε) : w.IndexesRun c g := by
  constructor
  · intro e
    obtain ⟨is, his, -⟩ := h.good.insert g e
    rw [h.length_eq] at his
    exact ⟨is, his⟩
  · intro x hx
    obtain ⟨c₁, c₂, hc⟩ := append_of_mem hx
    obtain ⟨is, his, -⟩ := h.good.delete g (hc ▸ perm_split c₁ c₂ x.1 x.2)
    rw [h.length_eq] at his
    exact ⟨is, his⟩

theorem allGood (h : w.Indexed c) (hfits : w.FitsIndexes a) (heff : Effect w c a w' c') :
    AllGood (c'.map Prod.snd) w'.mem.list.indexes := by
  obtain ⟨g, call⟩ := a
  cases heff with
  | keep _ his =>
    rw [his]
    exact h.good
  | push p e _ _ his _ =>
    obtain ⟨is, his', hgood⟩ := h.good.insert g e
    rw [h.length_eq] at his'
    obtain rfl := Except.ok.inj (his.symm.trans his')
    exact hgood
  | append p e hcall hg _ his =>
    obtain rfl : call = .insertAtEnd e := hcall
    rw [his]
    exact h.good.of_stale (hfits hg).1
  | remove c₁ c₂ q e hc his _ =>
    obtain ⟨is, his', hgood⟩ := h.good.delete g (hc ▸ perm_split c₁ c₂ q e)
    rw [h.length_eq] at his'
    obtain rfl := Except.ok.inj (his.symm.trans his')
    exact hgood
  | clear hcall _ his =>
    obtain rfl : call = .clearList := hcall
    rw [his]
    exact h.good.of_stale hfits.1

theorem onIndexes (h : w.Indexed c) (hord : a.2.Ordered) (hchain : a.2.onChain = false) :
    ∃ w' c', w.call a = .ok w' ∧ w'.Indexed c' := by
  obtain ⟨g, call⟩ := a
  have hcall : ∀ {is}, call.run w.mem g = .ok (w.mem.withIndexes is) →
      call.content w.mem.list.searchFunc g w.content = w.content →
      AllGood (c.map Prod.snd) is → ∃ w' c', w.call (g, call) = .ok w' ∧ w'.Indexed c' := by
    intro is hrun hcontent hgood
    refine ⟨_, c, ?_, h.withIndexes hgood⟩
    simp only [World.call, hrun, hcontent]
    rfl
  cases call with
  | addIndex cb lazyUpd =>
    obtain ⟨is, r, hres, hgood⟩ := addIndex_spec h.mem g hord lazyUpd
    exact hcall (congrArg (Functor.map Prod.fst) hres) rfl hgood
  | dropIndex id =>
    obtain ⟨is, r, hres, hgood⟩ := dropIndex_spec h.mem id
    exact hcall (congrArg Except.ok (congrArg Prod.fst hres)) rfl hgood
  | readIndex id nth =>
    obtain ⟨is, r, hres, hgood, -⟩ := readIndex_spec h.mem g id nth
    exact hcall (congrArg (Functor.map Prod.fst) hres) rfl hgood
  | searchIndex id data =>
    cases hi : w.mem.list.index? id with
    | none =>
      refine @hcall w.mem.list.indexes ?_ rfl h.good
      simp only [Call.run, searchIndex, hi]
      rfl
    | some i =>
      obtain ⟨is, r, hres, hgood, -⟩ := searchIndex_spec h.mem g data hi
      exact hcall (congrArg (Functor.map Prod.fst) hres) rfl hgood
  | changeIndexSort id newCb =>
    obtain ⟨is, r, hres, hgood⟩ := changeIndexSort_spec h.mem g id hord
    exact hcall (congrArg (Functor.map Prod.fst) hres) rfl hgood
  | _ => cases hchain

/-- **The step lemma**: a call that fits comes to its end and keeps the invariant. -/
theorem call (h : w.Indexed c) (hfresh : w.Fresh a) (hord : a.2.Ordered)
    (hfits : w.FitsIndexes a) : ∃ w' c', w.call a = .ok w' ∧ w'.Indexed c' := by
  cases hchain : a.2.onChain with
  | false => exact h.onIndexes hord hchain
  | true =>
    obtain ⟨w', c', hcall, hholds, heff⟩ :=
      h.holds.call hfresh hchain (h.safe hord hfits) h.last (h.indexesRun a.1)
    refine ⟨w', c', hcall, hholds, h.holds.lastKnown h.last heff, ?_, h.allGood hfits heff⟩
    rw [content_of_call hcall]
    exact content_alone h.alone hord

end World.Indexed

/-- Operations on a list that `create_list` has made. -/
def indexCalls (heap : Heap ε) (cmp search : Option (CompFunc ε)) :
    Lib.System (World ε) (Grant ε × Call ε) Fault where
  init := ⟨⟨heap, createList cmp search⟩, []⟩
  Allowed w a := w.Fresh a ∧ a.2.Ordered
  step := World.call

/-- **Alternate indexes are coherent in every run whose calls fit**, no call of such a run goes
wrong, `read_index` reads elements of the list, and `search_index` finds a position if and only if
an equal element is in the list, memory permitting. -/
theorem indexes_coherent {heap : Heap ε} {cmp search : Option (CompFunc ε)}
    (h : (indexCalls heap cmp search).Reach World.FitsIndexes w) :
    w.Coherent ∧
    (∀ a, w.Fresh a → a.2.Ordered → w.FitsIndexes a → ∃ w', w.call a = .ok w') ∧
    (∀ g id nth, ∃ m r, readIndex w.mem g id nth = .ok (m, r) ∧ ∀ e, r = .ok e → e ∈ w.elements) ∧
    (∀ g id data i, w.mem.list.index? id = some i →
      ∃ m r, searchIndex w.mem g id data = .ok (m, r) ∧
        (r = .error .enomem → g.table id.toNat = false) ∧
        (r ≠ .error .enomem →
          ((∃ pos, r = .ok pos) ↔ ∃ e ∈ w.elements, i.compFunc data e = 0))) := by
  have hinv : ∃ c, w.Indexed c := by
    apply h.invariant
    · exact ⟨[], ⟨rfl, rfl, .nil, primary_of_not_indexed rfl⟩, .inl rfl, nofun, nofun⟩
    · rintro w a w' ⟨c, hc⟩ hallowed hfits hstep
      obtain ⟨w'', c', hcall, hc'⟩ := hc.call hallowed.1 hallowed.2 hfits
      obtain rfl := Except.ok.inj (hcall.symm.trans hstep)
      exact ⟨c', hc'⟩
  obtain ⟨c, hc⟩ := hinv
  have hels : w.elements = c.map Prod.snd := hc.holds.elements.symm
  refine ⟨hc.coherent, ?_, ?_, ?_⟩
  · intro a hfresh hord hfits
    obtain ⟨w', -, hcall, -⟩ := hc.call hfresh hord hfits
    exact ⟨w', hcall⟩
  · intro g id nth
    obtain ⟨is, r, hres, -, hmem⟩ := readIndex_spec hc.mem g id nth
    rw [hels]
    exact ⟨_, r, hres, hmem⟩
  · intro g id data i hi
    obtain ⟨is, r, hres, -, hspec⟩ := searchIndex_spec hc.mem g data hi
    rw [hels]
    exact ⟨_, r, hres, hspec⟩

end Runs

def byValue : CompFunc ℕ := fun a b => (a : ℤ) - b

theorem byValue_totalPreorder : TotalPreorder byValue := by
  refine ⟨?_, ?_⟩
  · intro a b
    rw [byValue, byValue]
    omega
  · intro a b c hab hbc
    rw [byValue] at *
    omega

/-- An index of a list that two elements are then put to the front of: the smaller one is the first
entry. -/
theorem indexes_coherent_two_inserts :
    ∃ w, (indexCalls emptyHeap none none).Reach World.FitsIndexes w ∧
      w.elements = [1, 3, 2] ∧ (∃ i, some i ∈ w.mem.list.indexes ∧ i.elements = some [1, 2, 3]) ∧
      w.Coherent := by
  have hfresh : ∀ p q, p ≤ q → q < p + 1 → q = p := fun p q h h' => by omega
  have h₁ : (indexCalls emptyHeap none none).Reach World.FitsIndexes _ :=
    .step (a := (Grant.at 10, Call.insertAtEnd 2)) .init ⟨fun _ _ _ => rfl, trivial⟩
      (fun _ => ⟨nofun, .inr rfl⟩) rfl
  have h₂ := h₁.next (Grant.at 20, Call.addIndex byValue false)
      ⟨fun q h h' => absurd h' (Nat.not_lt.mpr h), byValue_totalPreorder⟩ trivial rfl
  have h₃ := h₂.next (Grant.at 30, Call.insertIntoList 3)
      ⟨fun q h h' => hfresh _ q h h' ▸ rfl, trivial⟩ trivial rfl
  have h₄ := h₃.next (Grant.at 40, Call.insertIntoList 1)
      ⟨fun q h h' => hfresh _ q h h' ▸ rfl, trivial⟩ trivial rfl
  exact ⟨_, h₄, rfl, ⟨_, List.mem_singleton.mpr rfl, rfl⟩, (indexes_coherent h₄).1⟩

/-- An element put to the end of a list with an index that is up to date: the index stays as it is
and counts as up to date. -/
theorem insert_at_end_leaves_index :
    ∃ w, (indexCalls emptyHeap none none).Reach (fun _ _ => True) w ∧ ¬ w.Coherent := by
  have hfresh : ∀ p q, p ≤ q → q < p + 1 → q = p := fun p q h h' => by omega
  have h₁ : (indexCalls emptyHeap none none).Reach (fun _ _ => True) _ :=
    .step (a := (Grant.at 10, Call.insertAtEnd 2)) .init ⟨fun _ _ _ => rfl, trivial⟩ trivial rfl
  have h₂ := h₁.next (Grant.at 20, Call.addIndex byValue false)
      ⟨fun q h h' => absurd h' (Nat.not_lt.mpr h), byValue_totalPreorder⟩ trivial rfl
  have h₃ := h₂.next (Grant.at 30, Call.insertAtEnd 1)
      ⟨fun q h h' => hfresh _ q h h' ▸ rfl, trivial⟩ trivial rfl
  refine ⟨_, h₃, ?_⟩
  intro hcoherent
  obtain ⟨a, ha, hlen, -⟩ := hcoherent _ (List.mem_singleton.mpr rfl) rfl
  cases ha
  cases hlen

end Ovlfs
