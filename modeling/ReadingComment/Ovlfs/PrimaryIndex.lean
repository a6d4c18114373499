import ReadingComment.Ovlfs.ListIndexes
import ReadingComment.Ovlfs.Storage

/-!
# The primary index of a list

The primary index is made from the chain when it is first needed, and an operation that changes the
chain either changes it too or gives it up. The chain does not depend on it, so it is followed on
the list without its index (`World.unindexed`).

`insert_many` writes its elements over the first entries of an index that is not empty,
`sort_sublist` calls the whole index sorted after it has sorted a part, and
`insert_into_list_sorted` looks at the first entry of a sorted index that has none.
-/

namespace Ovlfs

open List Ordered

variable {ε : Type} {cmp : CompFunc ε}

/-! ## What the index reflects -/

def KList.unindexed (l : KList ε) : KList ε := l.reindexed none .notIndexed

/-- A primary index has the elements, and they are in order when it is marked as sorted. -/
def KList.Reflects (cmp : CompFunc ε) (els : List ε) (l : KList ε) : Prop :=
  l.isIndexed = true →
    ∃ a, l.elementList = some a ∧ a.Perm els ∧ (l.indexMode = .sorted → Sorted cmp a)

/-- An operation on the primary index that goes well, and after which the index reflects the
elements. -/
def Reflecting (cmp : CompFunc ε) (els : List ε) (l : KList ε) (r : Except Fault (KList ε)) :
    Prop :=
  ∃ a mode, r = .ok (l.reindexed a mode) ∧ (l.reindexed a mode).Reflects cmp els

theorem reflects_of_not_indexed {els : List ε} {l : KList ε} (h : l.indexMode = .notIndexed) :
    l.Reflects cmp els := by
  intro hi
  exact absurd h (isIndexed_iff.mp hi)

theorem KList.Reflects.perm {els els' : List ε} {l : KList ε} (h : l.Reflects cmp els)
    (hperm : els.Perm els') : l.Reflects cmp els' := by
  intro hi
  obtain ⟨a, ha, hels, hs⟩ := h hi
  exact ⟨a, ha, hels.trans hperm, hs⟩

theorem Reflecting.self {els : List ε} {l : KList ε} (h : l.Reflects cmp els) :
    Reflecting cmp els l (.ok l) := ⟨_, _, rfl, h⟩

theorem Reflecting.bind {els els' : List ε} {l : KList ε} {r : Except Fault (KList ε)}
    {f : KList ε → Except Fault (KList ε)} (h : Reflecting cmp els l r)
    (hf : ∀ a mode, (l.reindexed a mode).Reflects cmp els →
      Reflecting cmp els' (l.reindexed a mode) (f (l.reindexed a mode))) :
    Reflecting cmp els' l (r >>= f) := by
  obtain ⟨a, mode, rfl, hl⟩ := h
  obtain ⟨b, mode', hb, hl'⟩ := hf a mode hl
  exact ⟨b, mode', hb, hl'⟩

section Index

variable {l : KList ε} {els : List ε}

theorem copied_all {a : List ε} (ha : l.elementList = some a) (g : Grant ε) :
    l.copied g a.length = .ok a := by
  rw [KList.copied, ha]
  simp only [Nat.lt_irrefl, if_false, take_length]

theorem appendToIndex_reflects (h : l.Reflects cmp els) (hn : l.numberOfElements = els.length)
    (g : Grant ε) (ele : ε) :
    Reflecting cmp (ele :: els) l.counted (l.counted.appendToIndex g l.numberOfElements ele) := by
  rw [KList.appendToIndex]
  split
  · rename_i hi
    obtain ⟨a, ha, hperm, -⟩ := h hi
    have hlen : l.numberOfElements = a.length := by rw [hn, hperm.length_eq]
    rw [KList.growIndex]
    split
    · refine ⟨some (a ++ [ele]), .flat, ?_, ?_⟩
      · have hone : l.counted.numberOfElements - a.length = 1 := by
          show l.numberOfElements + 1 - a.length = 1
          omega
        have hlast : l.counted.numberOfElements - 1 = a.length := hlen
        have hset : ∀ d, (a ++ [d]).set a.length ele = a ++ [ele] := by
          intro d
          rw [set_append_right _ _ (Nat.le_refl _), Nat.sub_self]
          rfl
        rw [hlen, copied_all (l := l.counted) ha, hone, hlast]
        show Except.ok (l.counted.reindexed (some ((a ++ [g.junk]).set a.length ele)) .flat) = _
        rw [hset]
      · intro _
        refine ⟨a ++ [ele], rfl, ?_, by rintro ⟨⟩⟩
        exact (perm_append_singleton ele a).trans (hperm.cons ele)
    · exact ⟨_, .notIndexed, rfl, reflects_of_not_indexed rfl⟩
  · rename_i hi
    exact .self (reflects_of_not_indexed (not_indexed hi))

variable {heap : Heap ε}

theorem checkIndex_reflects (h : l.Reflects cmp els) {c : List (ℕ × ε)}
    (hc : Linked heap.node l.firstElement c) (hn : l.numberOfElements = c.length)
    (hels : els = c.map Prod.snd) (g : Grant ε) :
    Reflecting cmp els l (l.checkIndex heap g) := by
  rw [KList.checkIndex]
  split
  · exact .self h
  · rename_i hi
    split
    · refine ⟨some els, .flat, ?_, ?_⟩
      · rw [hn, makeIndex_eq hc, hels]
        rfl
      · exact fun _ => ⟨els, rfl, .refl _, by rintro ⟨⟩⟩
    · exact ⟨none, l.indexMode, rfl, reflects_of_not_indexed (not_indexed hi)⟩

section

variable (hcmp : TotalPreorder cmp) (h : l.Reflects cmp els)
  (hcompare : l.elementCompare = some cmp)

include hcmp h hcompare

theorem sortIndexed_reflects (hn : l.numberOfElements = els.length) :
    Reflecting cmp els l l.sortIndexed := by
  rw [KList.sortIndexed, hcompare]
  split
  · rename_i cmp' hi hcmp'
    cases hcmp'
    obtain ⟨a, ha, hperm, -⟩ := h hi
    have hlen : l.numberOfElements = a.length := by rw [hn, hperm.length_eq]
    obtain ⟨hsort, hsorted⟩ := ssort_spec hcmp (l := a) (n := a.length - 1) (by omega)
    refine ⟨some (ssort cmp (a.length - 1) a), .sorted, ?_, ?_⟩
    · rw [ha, hlen]
      show (ssortArr cmp a.length a >>= fun a => _) = _
      rw [ssortArr_eq]
      rfl
    · exact fun _ => ⟨_, rfl, hsort.trans hperm, fun _ => hsorted⟩
  · exact .self h

theorem sortList_reflects {c : List (ℕ × ε)} (hc : Linked heap.node l.firstElement c)
    (hn : l.numberOfElements = c.length) (hels : els = c.map Prod.snd) (g : Grant ε) :
    Reflecting cmp els l (l.sortList heap g) := by
  have hlen : l.numberOfElements = els.length := by rw [hn, hels, length_map]
  exact (checkIndex_reflects h hc hn hels g).bind
    fun _ _ hl => sortIndexed_reflects hcmp hl hcompare hlen

theorem growIndexOrdered_reflects (hn : l.numberOfElements = els.length)
    (hs : l.indexMode = .sorted) (hne : els ≠ []) (g : Grant ε) (ele : ε) :
    ∃ pos, l.insertPos ele = .ok pos ∧
      Reflecting cmp (ele :: els) l.counted
        (l.counted.growIndexOrdered g ele pos l.numberOfElements) := by
  have hi : l.isIndexed = true := by
    rw [isIndexed_iff, hs]
    decide
  obtain ⟨a, ha, hperm, hsorted⟩ := h hi
  have hlen : l.numberOfElements = a.length := by rw [hn, hperm.length_eq]
  have hane : a ≠ [] := by
    rintro rfl
    exact hne (List.Perm.nil_eq hperm).symm
  obtain ⟨pos, hpos, hle, hins⟩ := findInsertPos_spec hcmp (hsorted hs) hane [] ele
  rw [append_nil] at hpos
  refine ⟨pos, ?_, ?_⟩
  · rw [KList.insertPos, hcompare, ha, hlen]
    exact hpos
  · rw [KList.growIndexOrdered]
    split
    · refine ⟨some (a.take pos ++ ele :: a.drop pos), l.indexMode, ?_, ?_⟩
      · rw [hlen, copied_all (l := l.counted) ha]
        show (if a.length < pos then _ else _) = _
        rw [if_neg (Nat.not_lt.mpr hle)]
        rfl
      · refine fun _ => ⟨_, rfl, ?_, fun _ => hins⟩
        refine perm_middle.trans (List.Perm.cons ele ?_)
        rw [take_append_drop]
        exact hperm
    · exact ⟨none, .notIndexed, rfl, reflects_of_not_indexed rfl⟩

theorem sortedInsert_reflects (hn : l.numberOfElements = els.length)
    (hne : l.indexMode = .sorted → els ≠ []) {c : List (ℕ × ε)} {ele : ε}
    (hc : Linked heap.node l.firstElement c) (hels : ele :: els = c.map Prod.snd) (g : Grant ε) :
    Reflecting cmp (ele :: els) l.counted (l.sortedInsert heap g ele) := by
  rw [KList.sortedInsert]
  split
  · rename_i hs
    obtain ⟨pos, hpos, hl⟩ := growIndexOrdered_reflects hcmp h hcompare hn hs (hne hs) g ele
    rw [hpos]
    exact hl
  · have hcount : l.counted.numberOfElements = c.length := by
      rw [← length_map (f := Prod.snd), ← hels, length_cons, ← hn]
      rfl
    exact (appendToIndex_reflects h hn g ele).bind
      fun _ _ hl => sortList_reflects hcmp hl hcompare hc hcount hels g

end

theorem growMany_reflects (h : l.Reflects cmp els) (hn : l.numberOfElements = els.length)
    (hempty : l.isIndexed = true → els = []) (g : Grant ε) (es : List ε) :
    Reflecting cmp (es ++ els) (l.countedBy es.length)
      ((l.countedBy es.length).growMany g l.numberOfElements es) := by
  rw [KList.growMany]
  split
  · rename_i hi
    obtain ⟨a, ha, hperm, -⟩ := h hi
    obtain rfl := hempty hi
    obtain rfl := List.Perm.eq_nil hperm
    have hzero : l.numberOfElements = ([] : List ε).length := hn
    rw [KList.growIndex]
    split
    · refine ⟨some es, .flat, ?_, fun _ => ⟨es, rfl, ?_, by rintro ⟨⟩⟩⟩
      · rw [hzero, copied_all (l := l.countedBy es.length) ha]
        have hdrop : (List.replicate ((l.countedBy es.length).numberOfElements - 0) g.junk).drop
            es.length = [] := by
          apply drop_eq_nil_of_le
          rw [length_replicate]
          show l.numberOfElements + es.length - 0 ≤ es.length
          rw [hzero, length_nil, Nat.zero_add]
          exact Nat.sub_le _ _
        show Except.ok ((l.countedBy es.length).reindexed (some (es ++ _)) .flat) = _
        rw [nil_append, length_nil, hdrop, append_nil]
      · rw [append_nil]
    · exact ⟨_, .notIndexed, rfl, reflects_of_not_indexed rfl⟩
  · exact ⟨_, .notIndexed, rfl, reflects_of_not_indexed rfl⟩

/-- The part of the index that `sort_sublist` sorts is in the index, and the rest is where it
belongs. -/
def PartFits (cmp : CompFunc ε) (firstEl : ℤ) (numEl : BitVec 32) (a : List ε) : Prop :=
  firstEl.toNat - 1 + numEl.toNat ≤ a.length ∧
    Around cmp (a.take (firstEl.toNat - 1)) ((a.drop (firstEl.toNat - 1)).take numEl.toNat)
      ((a.drop (firstEl.toNat - 1)).drop numEl.toNat)

def partSorted (cmp : CompFunc ε) (firstEl : ℤ) (numEl : BitVec 32) (a : List ε) : List ε :=
  a.take (firstEl.toNat - 1) ++
    (ssort cmp (numEl.toNat - 1) ((a.drop (firstEl.toNat - 1)).take numEl.toNat) ++
      (a.drop (firstEl.toNat - 1)).drop numEl.toNat)

theorem partSorted_spec (hcmp : TotalPreorder cmp) (firstEl : ℤ) (numEl : BitVec 32) (a : List ε) :
    (partSorted cmp firstEl numEl a).Perm a ∧
      (Sorted cmp (partSorted cmp firstEl numEl a) ↔
        Around cmp (a.take (firstEl.toNat - 1)) ((a.drop (firstEl.toNat - 1)).take numEl.toNat)
          ((a.drop (firstEl.toNat - 1)).drop numEl.toNat)) := by
  have hlen : ((a.drop (firstEl.toNat - 1)).take numEl.toNat).length ≤ numEl.toNat - 1 + 1 := by
    rw [length_take]
    omega
  obtain ⟨hsort, hsorted⟩ := ssort_spec hcmp hlen
  refine ⟨?_, sorted_around_iff hsort hsorted⟩
  have hrest := (hsort.append_right ((a.drop (firstEl.toNat - 1)).drop numEl.toNat)).append_left
    (a.take (firstEl.toNat - 1))
  rw [take_append_drop, take_append_drop] at hrest
  exact hrest

/-- What `sort_sublist` does to a list that is indexed: nothing, or it sorts the part and marks the
index as sorted. -/
theorem sortPart_eq (hcompare : l.elementCompare = some cmp) (hi : l.isIndexed = true) {a : List ε}
    (ha : l.elementList = some a) (firstEl : ℤ) (numEl : BitVec 32)
    (hin : 0 < firstEl ∧ (firstEl + numEl.toNat - 1) % 2 ^ 32 ≤ l.numberOfElements →
      firstEl.toNat - 1 + numEl.toNat ≤ a.length) :
    l.sortPart firstEl numEl = .ok
      (if 0 < firstEl ∧ (firstEl + numEl.toNat - 1) % 2 ^ 32 ≤ l.numberOfElements then
        l.reindexed (some (partSorted cmp firstEl numEl a)) .sorted else l) := by
  simp only [KList.sortPart, hi, hcompare]
  split
  · rename_i hvalid
    have hlen := hin hvalid
    have hnot : ¬ (a.drop (firstEl.toNat - 1)).length < numEl.toNat := by
      rw [length_drop]
      omega
    rw [ha]
    show (ssortArr cmp numEl.toNat (a.drop (firstEl.toNat - 1)) >>= _) = _
    rw [ssortArr, if_neg hnot]
    rfl
  · rfl

theorem sortPart_reflects (hcmp : TotalPreorder cmp) (h : l.Reflects cmp els)
    (hcompare : l.elementCompare = some cmp) {firstEl : ℤ} {numEl : BitVec 32}
    (hfits : ∀ a, l.isIndexed = true → l.elementList = some a →
      0 < firstEl ∧ (firstEl + numEl.toNat - 1) % 2 ^ 32 ≤ l.numberOfElements →
      PartFits cmp firstEl numEl a) :
    Reflecting cmp els l (l.sortPart firstEl numEl) := by
  cases hi : l.isIndexed with
  | false =>
    refine ⟨l.elementList, l.indexMode, ?_, h⟩
    simp only [KList.sortPart, hi]
    rfl
  | true =>
    obtain ⟨a, ha, hperm, -⟩ := h hi
    rw [sortPart_eq hcompare hi ha firstEl numEl fun hvalid => (hfits a hi ha hvalid).1]
    split
    · rename_i hvalid
      obtain ⟨hsort, hiff⟩ := partSorted_spec hcmp firstEl numEl a
      refine ⟨_, _, rfl, fun _ => ⟨_, rfl, hsort.trans hperm, fun _ => ?_⟩⟩
      exact hiff.mpr (hfits a hi ha hvalid).2
    · exact .self h

end Index

/-! ## Removals without the index -/

def Mem.unindexed (m : Mem ε) : Mem ε := ⟨m.heap, m.list.unindexed⟩

def World.unindexed (w : World ε) : World ε := ⟨w.mem.unindexed, w.content⟩

theorem unlink_unindexed (m : Mem ε) (last : Option ℕ) (cur : ℕ) (n : Node ε) :
    unlink m.unindexed last cur n = Mem.unindexed <$> unlink m last cur n := by
  cases last with
  | none => rfl
  | some q =>
    simp only [unlink, Mem.unindexed]
    cases m.heap.setNext q n.next <;> rfl

theorem unlink_compare {m m' : Mem ε} {last : Option ℕ} {cur : ℕ} {n : Node ε}
    (h : unlink m last cur n = .ok m') : m'.list.elementCompare = m.list.elementCompare := by
  cases last with
  | none =>
    cases h
    rfl
  | some q =>
    obtain ⟨m₁, hm₁, h⟩ := Lib.bind_eq_ok h
    obtain ⟨heap, -, hm₁⟩ := Lib.bind_eq_ok hm₁
    cases hm₁
    cases h
    rfl

def dropped (r : Mem ε × Removed ε) : Mem ε × Removed ε := (r.1.unindexed, r.2)

/-- An operation that does the same without the primary index, and that keeps the list or gives the
index up. -/
structure GivesUp (m : Mem ε) (r r' : Except Fault (Mem ε × Removed ε)) : Prop where
  same : r' = dropped <$> r
  list : ∀ m' e, r = .ok (m', e) → m'.list = m.list ∨
    (m'.list.indexMode = .notIndexed ∧ m'.list.elementCompare = m.list.elementCompare)

theorem GivesUp.bind {α : Type} {m : Mem ε} {x : Except Fault α}
    {f f' : α → Except Fault (Mem ε × Removed ε)} (h : ∀ a, GivesUp m (f a) (f' a)) :
    GivesUp m (x >>= f) (x >>= f') := by
  cases x with
  | error e => exact ⟨rfl, nofun⟩
  | ok a => exact h a

theorem GivesUp.ok {m m' : Mem ε} (e : Removed ε)
    (h : m'.list = m.list ∨
      (m'.list.indexMode = .notIndexed ∧ m'.list.elementCompare = m.list.elementCompare)) :
    GivesUp m (.ok (m', e)) (.ok (m'.unindexed, e)) := by
  refine ⟨rfl, ?_⟩
  rintro m'' e' heq
  cases heq
  exact h

section Removals

variable [DecidableEq ε] [Inhabited ε]

section

variable (m : Mem ε) (g : Grant ε)

include m g

theorem dropFound_givesUp (found : Option (Option ℕ × ℕ × Node ε)) :
    GivesUp m (dropFound m g found) (dropFound m.unindexed g found) := by
  cases found with
  | none => exact .ok .absent (.inl rfl)
  | some x =>
    obtain ⟨last, cur, n⟩ := x
    rw [dropFound, dropFound, unlink_unindexed]
    cases hunlink : unlink m last cur n with
    | error e => exact ⟨rfl, by rintro _ _ ⟨⟩⟩
    | ok m₁ =>
      have hcompare := unlink_compare hunlink
      apply GivesUp.bind (x := m₁.heap.free cur)
      intro heap
      apply GivesUp.bind (x := deleteIndexes m₁.list.numberOfElements g n.element m₁.list.indexes)
      intro is
      exact .ok (.data n.element) (.inr ⟨rfl, hcompare⟩)

theorem dropNth_givesUp (found : Option (Option ℕ × ℕ × Node ε)) :
    GivesUp m (dropNth m g found) (dropNth m.unindexed g found) := by
  cases found with
  | none => exact .ok .absent (.inl rfl)
  | some x =>
    obtain ⟨last, cur, n⟩ := x
    rw [dropNth, dropNth, unlink_unindexed]
    cases hunlink : unlink m last cur n with
    | error e => exact ⟨rfl, by rintro _ _ ⟨⟩⟩
    | ok m₁ =>
      have hcompare := unlink_compare hunlink
      apply GivesUp.bind (x := deleteIndexes m₁.list.numberOfElements g n.element m₁.list.indexes)
      intro is
      apply GivesUp.bind (x := m₁.heap.free cur)
      intro heap
      exact .ok (.data n.element) (.inr ⟨rfl, hcompare⟩)

theorem removeElement_givesUp (v : ε) :
    GivesUp m (removeElement m g v) (removeElement m.unindexed g v) := by
  apply GivesUp.bind (x := m.list.search v)
  intro search
  apply GivesUp.bind
    (x := findNode m.heap search m.list.numberOfElements none m.list.firstElement)
  exact dropFound_givesUp m g

theorem removeNth_givesUp (nth : ℤ) :
    GivesUp m (removeNth m g nth) (removeNth m.unindexed g nth) := by
  rw [removeNth, removeNth]
  split
  · exact .ok .bad (.inl rfl)
  · apply GivesUp.bind (x := findNth m.heap (nth.toNat - 1) none m.list.firstElement)
    exact dropNth_givesUp m g

end

end Removals

/-! ## Operations -/

section Runs

variable [DecidableEq ε] [Inhabited ε]

/-- A call of an operation, with those that sort the list or read from its index. -/
inductive Operation (ε : Type) where
  | call (c : Call ε)
  | sortList
  | sortSublist (firstEl : ℤ) (numEl : BitVec 32)
  | nthElement (nth : ℤ)
  | searchForElement (value : ε)

def World.withList (w : World ε) (l : KList ε) : World ε := ⟨⟨w.mem.heap, l⟩, w.content⟩

def World.operate (w : World ε) (a : Grant ε × Operation ε) : Except Fault (World ε) :=
  match a.2 with
  | .call c => w.call (a.1, c)
  | .sortList => w.withList <$> w.mem.list.sortList w.mem.heap a.1
  | .sortSublist firstEl numEl => w.withList <$> w.mem.list.sortSublist w.mem.heap a.1 firstEl numEl
  | .nthElement nth => (fun r => ⟨r.1, w.content⟩) <$> Ovlfs.nthElement w.mem a.1 nth
  | .searchForElement v => (fun r => ⟨r.1, w.content⟩) <$> Ovlfs.searchForElement w.mem a.1 v

/-- What is asked of the environment: new nodes are put where none is. -/
def World.Permits (w : World ε) (a : Grant ε × Operation ε) : Prop :=
  match a.2 with
  | .call c => w.Fresh (a.1, c) ∧ c.onChain = true
  | _ => True

/-- Operations on a list that `create_list` has made. -/
def primaryCalls (heap : Heap ε) (cmp : CompFunc ε) (search : Option (CompFunc ε)) :
    Lib.System (World ε) (Grant ε × Operation ε) Fault where
  init := ⟨⟨heap, createList (some cmp) search⟩, []⟩
  Allowed := World.Permits
  step := World.operate

/-- **The primary index is coherent**: it has an entry for each element that is counted, the entries
are the elements on the chain in some order, and they are in the order of `element_compare` when the
index is marked as sorted. -/
def World.PrimaryCoherent (w : World ε) : Prop :=
  w.mem.list.indexMode ≠ .notIndexed →
    ∃ c a, Linked w.mem.heap.node w.mem.list.firstElement c ∧ w.mem.list.elementList = some a ∧
      a.length = w.mem.list.numberOfElements ∧ a.Perm (c.map Prod.snd) ∧
      (w.mem.list.indexMode = .sorted →
        ∃ cmp, w.mem.list.elementCompare = some cmp ∧ Sorted cmp a)

/-- The entries of the primary index, or of the one that would be made from the chain. -/
def World.entries (w : World ε) : List ε :=
  if w.mem.list.isIndexed then w.mem.list.elementList.getD [] else w.elements

/-- The condition on operations under which the primary index stays coherent. -/
def World.FitsPrimary (w : World ε) (a : Grant ε × Operation ε) : Prop :=
  match a.2 with
  | .call (.insertMany es) => a.1.node = true → es ≠ [] ∧ es.length < 2 ^ 29 ∧
      (w.mem.list.isIndexed = true → w.mem.list.firstElement = none)
  | .call (.insertIntoListSorted _) => a.1.node = true → w.mem.list.indexMode = .sorted →
      w.mem.list.firstElement ≠ none
  | .call c => w.Safe (a.1, c)
  | .sortSublist firstEl numEl => ∀ cmp, w.mem.list.elementCompare = some cmp →
      0 < firstEl ∧ (firstEl + numEl.toNat - 1) % 2 ^ 32 ≤ w.mem.list.numberOfElements →
      PartFits cmp firstEl numEl w.entries
  | .searchForElement _ => w.mem.list.indexMode = .sorted ∨ w.mem.list.Searches
  | _ => True

/-- The chain of a list with a comparison function, and its primary index. -/
structure World.Cached (cmp : CompFunc ε) (w : World ε) (c : List (ℕ × ε)) : Prop where
  holds : w.unindexed.Holds c
  compare : w.mem.list.elementCompare = some cmp
  reflects : w.mem.list.Reflects cmp w.elements

namespace World.Cached

variable {w : World ε} {c : List (ℕ × ε)} {g : Grant ε}

section

omit [DecidableEq ε] [Inhabited ε]

section

variable (h : w.Cached cmp c)

include h

theorem elements : w.elements = c.map Prod.snd := h.holds.elements.symm

theorem count : w.mem.list.numberOfElements = w.elements.length := by
  rw [h.elements, length_map]
  exact h.holds.count

theorem coherent : w.PrimaryCoherent := by
  intro hi
  obtain ⟨a, ha, hperm, hs⟩ := h.reflects (isIndexed_iff.mpr hi)
  refine ⟨c, a, h.holds.linked, ha, ?_, ?_, fun hsorted => ⟨cmp, h.compare, hs hsorted⟩⟩
  · rw [h.count, hperm.length_eq]
  · rw [← h.elements]
    exact hperm

theorem reindexed {a : Option (List ε)} {mode : IndexMode}
    (hl : (w.mem.list.reindexed a mode).Reflects cmp w.elements) :
    (w.withList (w.mem.list.reindexed a mode)).Cached cmp c := ⟨h.holds, h.compare, hl⟩

theorem push {p : ℕ} {e : ε} (hfree : ∀ x ∈ c, x.1 ≠ p) {is : List (Option (Index ε))}
    {a : Option (List ε)} {mode : IndexMode}
    (hl : ((w.mem.list.pushed p is).counted.reindexed a mode).Reflects cmp (e :: w.elements)) :
    World.Cached cmp ⟨⟨w.mem.heap.alloc p ⟨e, w.mem.list.firstElement⟩,
      (w.mem.list.pushed p is).counted.reindexed a mode⟩, (e, true) :: w.content⟩ ((p, e) :: c) :=
  ⟨h.holds.push hfree rfl rfl (primary_of_not_indexed rfl), h.compare, hl⟩

end

end

omit [DecidableEq ε] in
theorem insertIntoListSorted (h : w.Cached cmp c) (hcmp : TotalPreorder cmp) {e : ε}
    (hfree : ∀ x ∈ c, x.1 ≠ g.addr) (hg : g.node = true)
    (hne : w.mem.list.indexMode = .sorted → w.mem.list.firstElement ≠ none)
    {is : List (Option (Index ε))}
    (his : insertIndexes w.mem.list.numberOfElements g e w.mem.list.indexes = .ok is) :
    ∃ a mode, Ovlfs.insertIntoListSorted w.mem g e =
        .ok (⟨w.mem.heap.alloc g.addr ⟨e, w.mem.list.firstElement⟩,
          (w.mem.list.pushed g.addr is).counted.reindexed a mode⟩, some e) ∧
      World.Cached cmp ⟨⟨w.mem.heap.alloc g.addr ⟨e, w.mem.list.firstElement⟩,
        (w.mem.list.pushed g.addr is).counted.reindexed a mode⟩, (e, true) :: w.content⟩
        ((g.addr, e) :: c) := by
  have hels : w.mem.list.indexMode = .sorted → w.elements ≠ [] := by
    intro hs hnil
    apply hne hs
    apply h.holds.linked.eq_none_iff.mpr
    apply map_eq_nil_iff.mp
    rw [← h.elements]
    exact hnil
  have hc : Linked (w.mem.heap.alloc g.addr ⟨e, w.mem.list.firstElement⟩).node
      (w.mem.list.pushed g.addr is).firstElement ((g.addr, e) :: c) := h.holds.linked.cons hfree
  obtain ⟨a, mode, ha, hl⟩ := sortedInsert_reflects hcmp (l := w.mem.list.pushed g.addr is)
    h.reflects h.compare h.count hels hc (congrArg (List.cons e) h.elements) g
  exact ⟨a, mode, insertIntoListSorted_eq hg his ha, h.push hfree hl⟩

omit [DecidableEq ε] [Inhabited ε] in
theorem removed (h : w.Cached cmp c) {a b : List (ℕ × ε)} {q : ℕ} {e : ε}
    (hc : c = a ++ (q, e) :: b)
    {a' b' : List (Item ε)} (ha : List.Forall₂ (Matches w.mem.heap.block) a a')
    (hb : List.Forall₂ (Matches w.mem.heap.block) b b') {is : List (Option (Index ε))}
    {r : Except Fault (Mem ε × Removed ε)} (hr : Removes w.mem a b q e is r) :
    ∃ node first last, r = .ok (⟨⟨node, Function.update w.mem.heap.block q 0⟩,
        w.mem.list.shrunk first last is⟩, .data e) ∧
      World.Cached cmp ⟨⟨⟨node, Function.update w.mem.heap.block q 0⟩,
        w.mem.list.shrunk first last is⟩, a' ++ b'⟩ (a ++ b) := by
  obtain ⟨node, first, rfl, hl⟩ := hr
  refine ⟨node, first, _, rfl, ?_, h.compare, reflects_of_not_indexed rfl⟩
  exact h.holds.remove (l := KList.unindexed (w.mem.list.shrunk first _ is)) hc ha hb hl rfl
    (primary_of_not_indexed rfl)

end World.Cached

/-- The chain of a list without alternate indexes, and its primary index. -/
structure World.Kept (cmp : CompFunc ε) (w : World ε) (c : List (ℕ × ε)) : Prop
    extends World.Cached cmp w c where
  last : w.LastKnown c
  noIndex : w.mem.list.indexes = []

namespace World.Kept

variable {w : World ε} {c : List (ℕ × ε)} {g : Grant ε}

variable {a : Option (List ε)} {mode : IndexMode}

omit [DecidableEq ε] [Inhabited ε] in
theorem reindexed (h : w.Kept cmp c) (hl : (w.mem.list.reindexed a mode).Reflects cmp w.elements) :
    (w.withList (w.mem.list.reindexed a mode)).Kept cmp c :=
  ⟨h.toCached.reindexed hl, h.last, h.noIndex⟩

omit [DecidableEq ε] in
theorem insertIndexes_eq (h : w.Kept cmp c) (g : Grant ε) (e : ε) :
    insertIndexes w.mem.list.numberOfElements g e w.mem.list.indexes = .ok [] := by
  rw [h.noIndex]
  rfl

omit [DecidableEq ε] [Inhabited ε] in
theorem pushMany (h : w.Kept cmp c) {p : ℕ} {es : List ε} (hes : es ≠ [])
    (hfree : ∀ x ∈ c, x.1 < p ∨ p + es.length ≤ x.1)
    (hl : ((w.mem.list.countedBy es.length).reindexed a mode).Reflects cmp (es ++ w.elements)) :
    World.Kept cmp ⟨⟨w.mem.heap.allocMany p w.mem.list.firstElement es,
      { (w.mem.list.countedBy es.length).reindexed a mode with firstElement := some p }⟩,
      es.map (fun e => (e, es.length == 1)) ++ w.content⟩ (placed p es ++ c) := by
  refine ⟨⟨h.holds.pushMany hes hfree rfl rfl (primary_of_not_indexed rfl), h.compare, ?_⟩,
    h.last.front rfl (placed p es), h.noIndex⟩
  have hels : World.elements ⟨w.mem, es.map (fun e => (e, es.length == 1)) ++ w.content⟩ =
      es ++ w.elements := by
    rw [World.elements, map_append, map_map]
    exact congrArg (· ++ w.elements) (map_id es)
  exact hels ▸ hl

omit [DecidableEq ε] [Inhabited ε] in
theorem append (h : w.Kept cmp c) {p : ℕ} {e : ε} (hfree : ∀ x ∈ c, x.1 ≠ p)
    {node : ℕ → Option (Node ε)}
    (hc : Linked node (w.mem.list.appended p).firstElement (c ++ [(p, e)]))
    (hl : ((w.mem.list.appended p).counted.reindexed a mode).Reflects cmp (e :: w.elements)) :
    World.Kept cmp ⟨⟨⟨node, Function.update w.mem.heap.block p 1⟩,
      (w.mem.list.appended p).counted.reindexed a mode⟩, w.content ++ [(e, true)]⟩
      (c ++ [(p, e)]) := by
  have hholds := h.holds.append (l := (w.mem.list.appended p).counted.unindexed) hfree hc rfl
    (primary_of_not_indexed rfl)
  refine ⟨⟨hholds, h.compare, hl.perm ?_⟩, .inr ?_, h.noIndex⟩
  · show (e :: w.elements).Perm ((w.content ++ [(e, true)]).map Prod.fst)
    rw [map_append]
    exact (perm_append_singleton e w.elements).symm
  · rw [prevOf, getLast?_concat]
    rfl

theorem insertIntoList (h : w.Kept cmp c) {e : ε} (hf : w.Fresh (g, .insertIntoList e)) :
    ∃ w' c', w.call (g, .insertIntoList e) = .ok w' ∧ w'.Kept cmp c' := by
  cases hg : g.node with
  | false =>
    refine ⟨w, c, World.call_keeps ?_ ?_, h⟩
    · simp only [Call.run, Ovlfs.insertIntoList, hg]
      rfl
    · simp only [Call.content, hg]
      rfl
  | true =>
    obtain ⟨a, mode, ha, hl⟩ := appendToIndex_reflects (l := w.mem.list.pushed g.addr [])
      h.reflects h.count g e
    have hres := insertIntoList_eq hg (h.insertIndexes_eq g e) ha
    have hfree := World.Holds.fresh_one h.holds (a := (g, .insertIntoList e)) hf rfl
    refine ⟨_, _, ?_, h.push hfree hl, h.last.front rfl [(g.addr, e)], rfl⟩
    simp only [World.call, Call.run, hres, Call.content, hg]
    rfl

theorem insertIntoListSorted (h : w.Kept cmp c) (hcmp : TotalPreorder cmp) {e : ε}
    (hf : w.Fresh (g, .insertIntoListSorted e))
    (hne : g.node = true → w.mem.list.indexMode = .sorted → w.mem.list.firstElement ≠ none) :
    ∃ w' c', w.call (g, .insertIntoListSorted e) = .ok w' ∧ w'.Kept cmp c' := by
  cases hg : g.node with
  | false =>
    refine ⟨w, c, World.call_keeps ?_ ?_, h⟩
    · simp only [Call.run, Ovlfs.insertIntoListSorted, hg]
      rfl
    · simp only [Call.content, hg]
      rfl
  | true =>
    have hfree := World.Holds.fresh_one h.holds (a := (g, .insertIntoListSorted e)) hf rfl
    obtain ⟨a, mode, hres, hc⟩ := h.toCached.insertIntoListSorted hcmp hfree hg (hne hg)
      (h.insertIndexes_eq g e)
    refine ⟨_, _, ?_, hc, h.last.front rfl [(g.addr, e)], rfl⟩
    simp only [World.call, Call.run, hres, Call.content, hg]
    rfl

theorem insertMany (h : w.Kept cmp c) {es : List ε} (hf : w.Fresh (g, .insertMany es))
    (hfits : g.node = true → es ≠ [] ∧ es.length < 2 ^ 29 ∧
      (w.mem.list.isIndexed = true → w.mem.list.firstElement = none)) :
    ∃ w' c', w.call (g, .insertMany es) = .ok w' ∧ w'.Kept cmp c' := by
  cases hg : g.node with
  | false =>
    refine ⟨w, c, World.call_keeps ?_ ?_, h⟩
    · simp only [Call.run, Ovlfs.insertMany, hg]
      rfl
    · simp only [Call.content, hg]
      rfl
  | true =>
    obtain ⟨hes, hsmall, hempty⟩ := hfits hg
    have hnil : w.mem.list.isIndexed = true → w.elements = [] := by
      intro hi
      rw [h.elements, h.holds.linked.eq_none_iff.mp (hempty hi)]
      rfl
    obtain ⟨a, mode, ha, hl⟩ := growMany_reflects h.reflects h.count hnil g es
    have hres := insertMany_eq h.noIndex hg hes hsmall ha
    refine ⟨_, _, ?_, h.pushMany hes (World.Holds.fresh h.holds (a := (g, .insertMany es)) hf) hl⟩
    simp only [World.call, Call.run, hres, Call.content, hg]
    rfl

theorem insertAtEnd (h : w.Kept cmp c) {e : ε} (hf : w.Fresh (g, .insertAtEnd e))
    (hsafe : w.Safe (g, .insertAtEnd e)) :
    ∃ w' c', w.call (g, .insertAtEnd e) = .ok w' ∧ w'.Kept cmp c' := by
  cases hg : g.node with
  | false =>
    refine ⟨w, c, World.call_keeps ?_ ?_, h⟩
    · simp only [Call.run, Ovlfs.insertAtEnd, hg]
      rfl
    · simp only [Call.content, hg]
      rfl
  | true =>
    have hfree := World.Holds.fresh_one h.holds (a := (g, .insertAtEnd e)) hf rfl
    have hend : w.mem.list.lastElement = prevOf none c := by
      rcases h.last with hnone | hend
      · rcases hsafe hg with hne | hfirst
        · exact absurd hnone hne
        · rw [hnone, h.holds.linked.eq_none_iff.mp hfirst]
          rfl
      · exact hend
    obtain ⟨a, mode, ha, hl⟩ := appendToIndex_reflects (l := w.mem.list.appended g.addr)
      h.reflects h.count g e
    obtain ⟨node, hres, hc⟩ := insertAtEnd_eq (m := w.mem) hg h.holds.linked hfree hend ha
    refine ⟨_, _, ?_, h.append hfree hc hl⟩
    simp only [World.call, Call.run, hres, Call.content, hg]
    rfl

theorem givesUp (h : w.Kept cmp c) {call : Call ε} {r r' : Except Fault (Mem ε × Removed ε)}
    (hrun : call.run w.mem g = Prod.fst <$> r)
    (hrun' : call.run w.mem.unindexed g = Prod.fst <$> r') (hgives : GivesUp w.mem r r')
    (hout : Outcome w.unindexed c (g, call)) :
    ∃ w' c', w.call (g, call) = .ok w' ∧ w'.Kept cmp c' := by
  obtain ⟨v, c', hcall, hholds, heff⟩ := hout
  rw [World.call, show call.run w.unindexed.mem g = _ from hrun', hgives.same] at hcall
  cases hr : r with
  | error e =>
    rw [hr] at hcall
    cases hcall
  | ok x =>
    obtain ⟨m, e⟩ := x
    rw [hr] at hcall
    cases hcall
    have hlast := World.Holds.lastKnown h.holds h.last heff
    have hnone := heff.noIndex h.noIndex
    refine ⟨⟨m, call.content w.mem.list.searchFunc g w.content⟩, c', ?_, ⟨hholds, ?_, ?_⟩, hlast,
      hnone⟩
    · rw [World.call, hrun, hr]
      rfl
    · rcases hgives.list m e hr with heq | ⟨-, hcompare⟩
      · exact (congrArg KList.elementCompare heq).trans h.compare
      · exact hcompare.trans h.compare
    · rcases hgives.list m e hr with heq | ⟨hmode, -⟩
      · -- the list is as long as it was, so it has the same elements
        have hlen : c'.length = c.length := by
          rw [← hholds.count, ← h.holds.count]
          show m.list.numberOfElements = w.mem.list.numberOfElements
          rw [heq]
        have hsame : c' = c := by
          cases heff with
          | keep _ _ => rfl
          | push p e _ _ _ _ =>
            rw [length_cons] at hlen
            omega
          | append p e _ _ _ _ =>
            rw [length_append, length_singleton] at hlen
            omega
          | remove c₁ c₂ q e hc _ _ =>
            rw [hc, length_append, length_append, length_cons] at hlen
            omega
          | clear _ _ _ => exact (eq_nil_of_length_eq_zero hlen.symm).symm
        have hels : World.elements ⟨m, call.content w.mem.list.searchFunc g w.content⟩ =
            w.elements := by
          rw [h.elements, ← hsame]
          exact hholds.elements.symm
        rw [hels]
        show m.list.Reflects cmp w.elements
        rw [heq]
        exact h.reflects
      · exact reflects_of_not_indexed hmode

theorem clearList (h : w.Kept cmp c) (hclears : w.Clears g) :
    ∃ w' c', w.call (g, .clearList) = .ok w' ∧ w'.Kept cmp c' := by
  obtain ⟨heap, hheap⟩ := World.Holds.freed h.holds hclears
  refine ⟨⟨⟨heap, { w.mem.list.cleanupIndex with
    numberOfElements := 0, firstElement := none, lastElement := none }⟩, []⟩, [], ?_,
    ⟨⟨rfl, rfl, .nil, primary_of_not_indexed rfl⟩, h.compare, reflects_of_not_indexed rfl⟩,
      .inl rfl,
    h.noIndex⟩
  simp only [World.call, Call.run, Ovlfs.clearList]
  rw [show freed w.mem g = _ from hheap]
  rfl

/-- **The step lemma** for the calls that change the chain. -/
theorem call (h : w.Kept cmp c) (hcmp : TotalPreorder cmp) {call : Call ε}
    (hfresh : w.Fresh (g, call)) (hchain : call.onChain = true)
    (hfits : w.FitsPrimary (g, .call call)) :
    ∃ w' c', w.call (g, call) = .ok w' ∧ w'.Kept cmp c' := by
  have hrun : w.unindexed.IndexesRun c g :=
    World.indexesRun_of_none (w := w.unindexed) h.noIndex c g
  cases call with
  | insertIntoList e => exact h.insertIntoList hfresh
  | insertMany es => exact h.insertMany hfresh hfits
  | insertIntoListSorted e => exact h.insertIntoListSorted hcmp hfresh hfits
  | insertAtEnd e => exact h.insertAtEnd hfresh hfits
  | removeElement v =>
    exact h.givesUp rfl rfl (removeElement_givesUp w.mem g v)
      (removeElement_outcome h.holds hfits.1 hfits.2 hrun)
  | removeNth n =>
    exact h.givesUp rfl rfl (removeNth_givesUp w.mem g n) (removeNth_outcome h.holds hfits hrun)
  | clearList => exact h.clearList hfits
  | setListAutolock b =>
    refine ⟨_, c, rfl, ⟨⟨h.holds.linked, h.holds.count, h.holds.items, ?_⟩, h.compare, h.reflects⟩,
      h.last, h.noIndex⟩
    exact primary_of_not_indexed rfl
  | addIndex cb l => cases hchain
  | dropIndex id => cases hchain
  | readIndex id n => cases hchain
  | searchIndex id d => cases hchain
  | changeIndexSort id cb => cases hchain

end World.Kept

/-! ## Reading the list -/

omit [DecidableEq ε] [Inhabited ε] in
theorem lSearch_eq {h : Heap ε} (search : ε → ℤ) {p : Option ℕ} {c : List (ℕ × ε)}
    (hc : Linked h.node p c) :
    lSearch h search c.length p = .ok ((c.map Prod.snd).find? fun e => search e == 0) := by
  induction c generalizing p with
  | nil => rfl
  | cons x c ih =>
    obtain ⟨rfl, next, hx, hnext⟩ := hc
    rw [length_cons, lSearch, deref_of hx, map_cons, find?_cons]
    show (if search x.2 = 0 then Except.ok (some x.2) else lSearch h search c.length next) = _
    split
    · rename_i heq
      rw [heq]
      rfl
    · rename_i hne
      rw [beq_eq_false_iff_ne.mpr hne]
      exact ih hnext

namespace World.Cached

variable {w : World ε} {c : List (ℕ × ε)} {g : Grant ε}

section

omit [DecidableEq ε] [Inhabited ε]

theorem checkIndex (h : w.Cached cmp c) (g : Grant ε) :
    ∃ a mode, w.mem.list.checkIndex w.mem.heap g = .ok (w.mem.list.reindexed a mode) ∧
      (w.mem.list.reindexed a mode).Reflects cmp w.elements :=
  checkIndex_reflects h.reflects h.holds.linked h.holds.count h.elements g

theorem checkIndex_mode {l l' : KList ε} {heap : Heap ε} (hres : l.checkIndex heap g = .ok l')
    (hs : l'.indexMode = .sorted) : l.indexMode = .sorted := by
  rw [KList.checkIndex] at hres
  split at hres
  · rw [Except.ok.inj hres]
    exact hs
  · split at hres
    · obtain ⟨b, -, hb⟩ := Lib.bind_eq_ok hres
      rw [← Except.ok.inj hb] at hs
      cases hs
    · rw [← Except.ok.inj hres] at hs
      exact hs

theorem checkIndex_entries (h : w.Cached cmp c) {l : KList ε}
    (hres : w.mem.list.checkIndex w.mem.heap g = .ok l) (hi : l.isIndexed = true) :
    l.elementList = some w.entries := by
  rw [KList.checkIndex] at hres
  rw [World.entries]
  split at hres
  · rename_i hindexed
    cases hres
    obtain ⟨a, ha, -⟩ := h.reflects hi
    rw [if_pos hindexed, ha]
    rfl
  · rename_i hindexed
    rw [if_neg hindexed]
    split at hres
    · have hmake : makeIndex w.mem.heap w.mem.list.numberOfElements w.mem.list.firstElement =
          .ok w.elements := by
        rw [h.elements, show w.mem.list.numberOfElements = c.length from h.holds.count]
        exact makeIndex_eq h.holds.linked
      rw [hmake] at hres
      cases hres
      rfl
    · cases hres
      exact absurd hi hindexed

theorem bsearch_entry (f : CompFunc ε) (v : ε) (a : List ε) :
    ∃ r, bsearch f a.length v (some a) = .ok r ∧
      (∀ cur, r = some cur → ∃ x, a[cur]? = some x ∧ f v x = 0) ∧
      (TotalPreorder f → Sorted f a → r = none → ∀ x ∈ a, f v x ≠ 0) := by
  rcases Nat.eq_zero_or_pos a.length with hzero | hpos
  · obtain rfl := eq_nil_of_length_eq_zero hzero
    exact ⟨none, rfl, nofun, fun _ _ _ x hx => by cases hx⟩
  · obtain ⟨cur, d, hbis, -⟩ := bisect_total (f v) (Nat.le_refl a.length) hpos (Nat.le_refl _)
      (Nat.le_succ a.length)
    obtain ⟨x, hx, rfl⟩ := bisect_answer hbis
    have hres : bsearch f a.length v (some a) = .ok (if f v x = 0 then some cur else none) := by
      rw [bsearch, if_neg (Nat.ne_of_gt hpos), hbis]
      rfl
    refine ⟨_, hres, ?_, ?_⟩
    · intro cur' hcur
      split at hcur
      · rename_i hzero
        cases hcur
        exact ⟨x, hx, hzero⟩
      · cases hcur
    · intro hf hs hnone y hy hyzero
      obtain ⟨r, hr, hiff⟩ := bsearch_spec hf hs v
      have hsome := hiff.mpr ⟨y, hy, hyzero⟩
      rw [Except.ok.inj (hr.symm.trans hres), hnone] at hsome
      cases hsome

/-- `search_for_element` finds an element that matches, and one if there is one when the list is
searched with a function that has the order it is sorted by. -/
theorem searchForElement (h : w.Cached cmp c) {v : ε}
    (hfits : w.mem.list.indexMode = .sorted ∨ w.mem.list.Searches) :
    ∃ a mode x, Ovlfs.searchForElement w.mem g v =
        .ok (⟨w.mem.heap, w.mem.list.reindexed a mode⟩, x) ∧
      (w.mem.list.reindexed a mode).Reflects cmp w.elements ∧
      (mode = .sorted → w.mem.list.indexMode = .sorted) ∧
      (∀ f, w.mem.list.searchFunc = some f → ∀ y, x = some y → y ∈ w.elements ∧ f v y = 0) ∧
      (∀ f, w.mem.list.searchFunc = some f → TotalPreorder f →
        (∀ a, Sorted cmp a → Sorted f a) → x = none → ∀ y ∈ w.elements, f v y ≠ 0) := by
  obtain ⟨a, mode, hcheck, hl⟩ := h.checkIndex g
  have hmode : mode = .sorted → w.mem.list.indexMode = .sorted := checkIndex_mode hcheck
  refine ⟨a, mode, ?_⟩
  rw [Ovlfs.searchForElement, hcheck]
  simp only [bind, Except.bind, KList.reindexed]
  cases hsearch : w.mem.list.searchFunc with
  | none =>
    have hnone : mode = .sorted ∨ w.mem.list.numberOfElements = 0 := by
      rcases hfits with hs | hfirst | hne
      · have hi : w.mem.list.isIndexed = true := by
          rw [isIndexed_iff, hs]
          decide
        rw [KList.checkIndex, if_pos hi] at hcheck
        exact .inl ((congrArg KList.indexMode (Except.ok.inj hcheck)).symm.trans hs)
      · refine .inr ?_
        rw [show w.mem.list.numberOfElements = c.length from h.holds.count,
          h.holds.linked.eq_none_iff.mp hfirst]
        rfl
      · exact absurd hsearch hne
    exact ⟨none, if_pos hnone, hsearch ▸ hl, hmode, by rintro _ ⟨⟩, by rintro _ ⟨⟩⟩
  | some f =>
    rcases eq_or_ne mode .sorted with rfl | hne
    · obtain ⟨b, hb, hperm, hs⟩ := hl rfl
      obtain rfl : a = some b := hb
      have hn : w.mem.list.numberOfElements = b.length := by rw [h.count, hperm.length_eq]
      obtain ⟨r, hr, hfound, hmissed⟩ := bsearch_entry f v b
      simp only [if_true, hn, hr]
      cases r with
      | none =>
        refine ⟨none, rfl, ?_, fun _ => hmode rfl, by rintro _ _ _ ⟨⟩, ?_⟩
        · rw [← hn, ← hsearch]
          exact hl
        · intro f' hfc hcmp hsame _ y hy
          cases hfc
          exact hmissed hcmp (hsame b (hs rfl)) rfl y (hperm.mem_iff.mpr hy)
      | some cur =>
        obtain ⟨x, hx, hzero⟩ := hfound cur rfl
        simp only [readArr, hx]
        refine ⟨some x, rfl, ?_, fun _ => hmode rfl, ?_, by rintro _ _ _ _ ⟨⟩⟩
        · rw [← hn, ← hsearch]
          exact hl
        · intro f' hf' y hy
          cases hf'
          cases hy
          exact ⟨hperm.mem_iff.mp (mem_of_getElem? hx), hzero⟩
    · have hwalk : lSearch w.mem.heap (f v) w.mem.list.numberOfElements w.mem.list.firstElement =
          .ok (w.elements.find? fun e => f v e == 0) := by
        rw [h.elements, show w.mem.list.numberOfElements = c.length from h.holds.count]
        exact lSearch_eq (f v) h.holds.linked
      simp only [if_neg hne, hwalk]
      refine ⟨_, rfl, hsearch ▸ hl, hmode, ?_, ?_⟩
      · intro f' hf' y hy
        cases hf'
        have hzero : (f v y == 0) = true := find?_some (p := fun e => f v e == 0) hy
        exact ⟨mem_of_find?_eq_some hy, eq_of_beq hzero⟩
      · intro f' hfc _ _ hnone y hy hzero
        cases hfc
        exact find?_eq_none.mp hnone y hy (beq_iff_eq.mpr hzero)

end

end World.Cached

namespace World.Kept

variable {w : World ε} {c : List (ℕ × ε)} {g : Grant ε}

theorem sortList (h : w.Kept cmp c) (hcmp : TotalPreorder cmp) :
    ∃ w', w.operate (g, .sortList) = .ok w' ∧ w'.Kept cmp c := by
  obtain ⟨a, mode, hres, hl⟩ := sortList_reflects hcmp h.reflects h.compare h.holds.linked
    h.holds.count h.elements g
  exact ⟨_, congrArg (Functor.map w.withList) hres, h.reindexed hl⟩

theorem sortSublist (h : w.Kept cmp c) (hcmp : TotalPreorder cmp) {firstEl : ℤ}
    {numEl : BitVec 32} (hfits : w.FitsPrimary (g, .sortSublist firstEl numEl)) :
    ∃ w', w.operate (g, .sortSublist firstEl numEl) = .ok w' ∧ w'.Kept cmp c := by
  obtain ⟨a, mode, hcheck, hl⟩ := h.checkIndex g
  have hpart : ∀ b, (w.mem.list.reindexed a mode).isIndexed = true →
      (w.mem.list.reindexed a mode).elementList = some b →
      0 < firstEl ∧ (firstEl + numEl.toNat - 1) % 2 ^ 32 ≤ w.mem.list.numberOfElements →
      PartFits cmp firstEl numEl b := by
    intro b hi hb hvalid
    obtain rfl := Option.some.inj ((h.checkIndex_entries hcheck hi).symm.trans hb)
    exact hfits cmp h.compare hvalid
  obtain ⟨b, mode', hres, hl'⟩ := sortPart_reflects hcmp hl h.compare hpart
  refine ⟨w.withList (w.mem.list.reindexed b mode'), ?_, h.reindexed hl'⟩
  rw [World.operate]
  show w.withList <$> (w.mem.list.checkIndex w.mem.heap g >>= _) = _
  rw [hcheck]
  exact congrArg (Functor.map w.withList) hres

theorem nthElement (h : w.Kept cmp c) (nth : ℤ) :
    ∃ w', w.operate (g, .nthElement nth) = .ok w' ∧ w'.Kept cmp c := by
  obtain ⟨a, mode, hcheck, hl⟩ := h.checkIndex g
  obtain ⟨x, hres⟩ : ∃ x, Ovlfs.nthElement w.mem g nth =
      .ok (⟨w.mem.heap, w.mem.list.reindexed a mode⟩, x) := by
    rw [Ovlfs.nthElement, hcheck]
    show ∃ x, (if (w.mem.list.reindexed a mode).isIndexed = true ∧ nth > 0 ∧
      nth ≤ (w.mem.list.numberOfElements : ℤ) then _ else _) = _
    split
    · rename_i hvalid
      obtain ⟨hi, hpos, hle⟩ := hvalid
      obtain ⟨b, hb, hperm, -⟩ := hl hi
      have hlt : (nth - 1).toNat < b.length := by
        rw [hperm.length_eq, ← h.count]
        omega
      refine ⟨some (b.get ⟨_, hlt⟩), ?_⟩
      have hread : b[(nth - 1).toNat]? = some (b.get ⟨_, hlt⟩) := getElem?_eq_getElem hlt
      rw [hb]
      show (readArr b[(nth - 1).toNat]? >>= _) = _
      rw [hread]
      rfl
    · exact ⟨none, rfl⟩
  refine ⟨w.withList (w.mem.list.reindexed a mode), ?_, h.reindexed hl⟩
  rw [World.operate]
  show (fun r : Mem ε × Option ε => (⟨r.1, w.content⟩ : World ε)) <$> Ovlfs.nthElement w.mem g nth =
    _
  rw [hres]
  rfl

theorem searchForElement (h : w.Kept cmp c) {v : ε}
    (hfits : w.mem.list.indexMode = .sorted ∨ w.mem.list.Searches) :
    ∃ w', w.operate (g, .searchForElement v) = .ok w' ∧ w'.Kept cmp c := by
  obtain ⟨a, mode, x, hres, hl, -⟩ := h.toCached.searchForElement (g := g) (v := v) hfits
  refine ⟨w.withList (w.mem.list.reindexed a mode), ?_, h.reindexed hl⟩
  rw [World.operate]
  show (fun r : Mem ε × Option ε => (⟨r.1, w.content⟩ : World ε)) <$>
    Ovlfs.searchForElement w.mem g v = _
  rw [hres]
  rfl

/-- **The step lemma**: an operation that fits comes to its end and keeps the index. -/
theorem operate (h : w.Kept cmp c) (hcmp : TotalPreorder cmp) {a : Grant ε × Operation ε}
    (hpermits : w.Permits a) (hfits : w.FitsPrimary a) :
    ∃ w' c', w.operate a = .ok w' ∧ w'.Kept cmp c' := by
  obtain ⟨g, op⟩ := a
  cases op with
  | call call => exact h.call hcmp hpermits.1 hpermits.2 hfits
  | sortList =>
    obtain ⟨w', hres, h'⟩ := h.sortList (g := g) hcmp
    exact ⟨w', c, hres, h'⟩
  | sortSublist firstEl numEl =>
    obtain ⟨w', hres, h'⟩ := h.sortSublist hcmp hfits
    exact ⟨w', c, hres, h'⟩
  | nthElement nth =>
    obtain ⟨w', hres, h'⟩ := h.nthElement (g := g) nth
    exact ⟨w', c, hres, h'⟩
  | searchForElement v =>
    obtain ⟨w', hres, h'⟩ := h.searchForElement (g := g) (v := v) hfits
    exact ⟨w', c, hres, h'⟩

end World.Kept

/-- **The primary index is coherent in every run whose operations fit**, and no operation of such a
run goes wrong. -/
theorem primary_index_coherent {heap : Heap ε} (hcmp : TotalPreorder cmp)
    {search : Option (CompFunc ε)} {w : World ε}
    (h : (primaryCalls heap cmp search).Reach World.FitsPrimary w) :
    w.PrimaryCoherent ∧ ∀ a, w.Permits a → w.FitsPrimary a → ∃ w', w.operate a = .ok w' := by
  have hkept : ∃ c, w.Kept cmp c := by
    apply h.invariant
    · exact ⟨[], ⟨⟨rfl, rfl, .nil, primary_of_not_indexed rfl⟩, rfl, reflects_of_not_indexed rfl⟩,
        .inl rfl, rfl⟩
    · rintro w a w' ⟨c, hc⟩ hpermits hfits hstep
      obtain ⟨w'', c', hres, hc'⟩ := hc.operate hcmp hpermits hfits
      obtain rfl := Except.ok.inj (hres.symm.trans hstep)
      exact ⟨c', hc'⟩
  obtain ⟨c, hc⟩ := hkept
  refine ⟨hc.coherent, ?_⟩
  intro a hpermits hfits
  obtain ⟨w', -, hres, -⟩ := hc.operate hcmp hpermits hfits
  exact ⟨w', hres⟩

end Runs

/-- A list of two elements is sorted, and a third one is put to its place in the index. -/
theorem primary_index_coherent_sorted_insert :
    ∃ w, (primaryCalls emptyHeap byValue none).Reach World.FitsPrimary w ∧
      w.mem.list.indexMode = .sorted ∧ w.mem.list.elementList = some [1, 2, 3] ∧
      w.PrimaryCoherent := by
  have hfresh : ∀ p q, p ≤ q → q < p + 1 → q = p := fun p q h h' => by omega
  have h₁ : (primaryCalls emptyHeap byValue none).Reach World.FitsPrimary _ :=
    .step (a := (Grant.at 10, .call (.insertAtEnd 3))) .init ⟨fun _ _ _ => rfl, rfl⟩
      (fun _ => .inr rfl) rfl
  have h₂ := h₁.next (Grant.at 20, .call (.insertIntoList 1))
      ⟨fun q h h' => hfresh _ q h h' ▸ rfl, rfl⟩ trivial rfl
  have h₃ := h₂.next (Grant.at 30, .sortList) trivial trivial rfl
  have h₄ := h₃.next (Grant.at 40, .call (.insertIntoListSorted 2))
      ⟨fun q h h' => hfresh _ q h h' ▸ rfl, rfl⟩ (fun _ _ => Option.some_ne_none _) rfl
  exact ⟨_, h₄, rfl, rfl, (primary_index_coherent byValue_totalPreorder h₄).1⟩

/-- The first of two elements is sorted, and the index with the greater one in front is marked as
sorted; or an element is put to a list with an index, which then has it twice over. -/
theorem primary_index_incoherent :
    (∃ w, (primaryCalls emptyHeap byValue none).Reach (fun _ _ => True) w ∧
      w.mem.list.indexMode = .sorted ∧ w.mem.list.elementList = some [2, 1] ∧
      ¬ w.PrimaryCoherent) ∧
    ∃ w, (primaryCalls emptyHeap byValue none).Reach (fun _ _ => True) w ∧
      w.mem.list.elementList = some [1, 0] ∧ w.elements = [1, 2] ∧ ¬ w.PrimaryCoherent := by
  have hfresh : ∀ p q, p ≤ q → q < p + 1 → q = p := fun p q h h' => by omega
  have h₁ : (primaryCalls emptyHeap byValue none).Reach (fun _ _ => True) _ :=
    .step (a := (Grant.at 10, .call (.insertAtEnd 2))) .init ⟨fun _ _ _ => rfl, rfl⟩ trivial rfl
  constructor
  · have h₂ := h₁.next (Grant.at 20, .call (.insertAtEnd 1))
        ⟨fun q h h' => hfresh _ q h h' ▸ rfl, rfl⟩ trivial rfl
    have h₃ := h₂.next (Grant.at 30, .sortSublist 1 1) trivial trivial rfl
    refine ⟨_, h₃, rfl, rfl, ?_⟩
    intro hcoherent
    obtain ⟨-, a, -, ha, -, -, hs⟩ := hcoherent nofun
    obtain ⟨cmp, hcmp, hs⟩ := hs rfl
    cases ha
    cases hcmp
    exact absurd (List.rel_of_pairwise_cons hs (List.mem_singleton.mpr rfl)) (by decide)
  · have h₂ := h₁.next (Grant.at 20, .nthElement 1) trivial trivial rfl
    have h₃ := h₂.next (Grant.at 30, .call (.insertMany [1]))
        ⟨fun q h h' => hfresh _ q h h' ▸ rfl, rfl⟩ trivial rfl
    refine ⟨_, h₃, rfl, rfl, ?_⟩
    intro hcoherent
    obtain ⟨c, a, hc, ha, -, hperm, -⟩ := hcoherent nofun
    cases ha
    have hlist := hc.unique (show Linked _ _ [(30, 1), (10, 2)] from
      ⟨rfl, some 10, rfl, rfl, none, rfl, rfl⟩)
    rw [hlist] at hperm
    exact absurd (hperm.mem_iff.mp (List.mem_cons_of_mem _ (List.mem_singleton.mpr rfl)))
      (by decide)

end Ovlfs
