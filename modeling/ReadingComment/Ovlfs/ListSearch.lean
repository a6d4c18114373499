import ReadingComment.Ovlfs.PrimaryIndex

/-!
# Searching a list

`search_for_element` and `search_element_pos` take the binary search when the primary index is
marked as sorted and walk the chain when it is not. The binary search compares with `search_func`,
the index was sorted with `element_compare`, and the two are changed without a look at the mark.

An operation does to a list what it does to the list without alternate indexes (`World.bare`), so a
run is followed on lists without them. The position that `search_element_pos` gives is one on the
chain where it has walked the chain, and `nth_element` takes it for one in the index.
-/

namespace Ovlfs

open Lib List Ordered

variable {ε : Type} {cmp f : CompFunc ε}

/-! ## The functions -/

/-- `set_compare_func(list, comp_func)`. -/
def setCompareFunc (l : KList ε) (compFunc : CompFunc ε) : KList ε :=
  { l with elementCompare := some compFunc }

/-- `set_search_func(list, search_func)`. -/
def setSearchFunc (l : KList ε) (searchFunc : CompFunc ε) : KList ε :=
  { l with searchFunc := some searchFunc }

/-- The loop of `l_search(list_to_search, value)` with `element_count`, which is the position of the
element that is found. -/
def lSearchPos (h : Heap ε) (search : ε → ℤ) : ℕ → ℕ → Option ℕ → Except Fault ℕ
  | 0, _, _ => .ok 0
  | n + 1, elementCount, p => do
    let node ← h.deref p
    if search node.element = 0 then return elementCount + 1
    else lSearchPos h search n (elementCount + 1) node.next

/-- `search_element_pos(list_to_search, value)`. -/
def searchElementPos (m : Mem ε) (g : Grant ε) (value : ε) : Except Fault (Mem ε × ℕ) := do
  let l ← m.list.checkIndex m.heap g
  match l.searchFunc with
  | none =>
    if l.indexMode = .sorted ∨ l.numberOfElements = 0 then return ({ m with list := l }, 0)
    else .error .nullCall
  | some cmp =>
    if l.indexMode = .sorted then
      let answer ← bsearch cmp l.numberOfElements value l.elementList
      return ({ m with list := l }, answer.elim 0 (· + 1))
    else
      let elementNo ← lSearchPos m.heap (cmp value) l.numberOfElements 0 l.firstElement
      return ({ m with list := l }, elementNo)

/-! ## Functions that agree -/

def Agrees (f cmp : CompFunc ε) : Prop := ∀ a b, (f a b).sign = (cmp a b).sign

namespace Agrees

theorem neg_iff (h : Agrees f cmp) (a b : ε) : f a b < 0 ↔ cmp a b < 0 := by
  rw [← Int.sign_eq_neg_one_iff_neg, h a b, Int.sign_eq_neg_one_iff_neg]

theorem pos_iff (h : Agrees f cmp) (a b : ε) : 0 < f a b ↔ 0 < cmp a b := by
  rw [← Int.sign_eq_one_iff_pos, h a b, Int.sign_eq_one_iff_pos]

theorem nonpos_iff (h : Agrees f cmp) (a b : ε) : f a b ≤ 0 ↔ cmp a b ≤ 0 := by
  rw [← not_lt, h.pos_iff, not_lt]

theorem totalPreorder (h : Agrees f cmp) (hcmp : TotalPreorder cmp) : TotalPreorder f where
  swap a b := by rw [h.neg_iff, h.pos_iff, hcmp.swap]
  trans a b c := by
    rw [h.nonpos_iff, h.nonpos_iff, h.nonpos_iff]
    exact hcmp.trans a b c

theorem sorted (h : Agrees f cmp) {a : List ε} (hs : Sorted cmp a) : Sorted f a :=
  hs.imp fun hxy => (h.nonpos_iff _ _).mpr hxy

end Agrees

/-! ## Lists without alternate indexes -/

def KList.bare (l : KList ε) : KList ε := { l with indexes := [] }

def Mem.bare (m : Mem ε) : Mem ε := ⟨m.heap, m.list.bare⟩

def World.bare (w : World ε) : World ε := ⟨w.mem.bare, w.content⟩

def Follows {α β : Type} (proj : α → β) (r : Except Fault α) (r' : Except Fault β) : Prop :=
  ∀ x, r = .ok x → r' = .ok (proj x)

namespace Follows

variable {α β γ δ : Type} {proj : α → β} {proj' : γ → δ}

theorem ok (x : α) : Follows proj (.ok x) (.ok (proj x)) := by
  intro y hy
  rw [Except.ok.inj hy]

theorem error (e : Fault) (r : Except Fault β) : Follows proj (.error e) r := nofun

variable {r : Except Fault α}

variable {k : α → Except Fault γ}

theorem bind {r' : Except Fault β} {k' : β → Except Fault δ} (h : Follows proj r r')
    (hk : ∀ x, Follows proj' (k x) (k' (proj x))) : Follows proj' (r >>= k) (r' >>= k') := by
  intro y hy
  obtain ⟨x, hx, hky⟩ := bind_eq_ok hy
  rw [h x hx]
  exact hk x y hky

theorem same {k' : α → Except Fault δ} (hk : ∀ x, Follows proj' (k x) (k' x)) :
    Follows proj' (r >>= k) (r >>= k') := by
  intro y hy
  obtain ⟨x, hx, hky⟩ := bind_eq_ok hy
  rw [hx]
  exact hk x y hky

theorem skip {y : β} {k' : β → Except Fault δ} (hk : ∀ x, Follows proj' (k x) (k' y)) :
    Follows proj' (r >>= k) (.ok y >>= k') := by
  intro z hz
  obtain ⟨x, -, hkz⟩ := bind_eq_ok hz
  exact hk x z hkz

theorem map {r' : Except Fault β} {k : α → γ} {k' : β → δ} (h : Follows proj r r')
    (hk : ∀ x, proj' (k x) = k' (proj x)) :
    Follows proj' (k <$> r) (k' <$> r') := by
  cases r with
  | error e => exact .error e _
  | ok x =>
    rw [h x rfl]
    intro y hy
    rw [← Except.ok.inj hy, hk]
    rfl

theorem ite {p : Prop} [Decidable p] {a b : Except Fault α} {a' b' : Except Fault β}
    (h : Follows proj a a') (h' : Follows proj b b') :
    Follows proj (if p then a else b) (if p then a' else b') := by
  split
  · exact h
  · exact h'

end Follows

section Bare

variable {l : KList ε} {m : Mem ε} {g : Grant ε}

theorem growIndex_bare (l : KList ε) (g : Grant ε) (n : ℕ) (write : List ε → List ε) :
    Follows KList.bare (l.growIndex g n write) (l.bare.growIndex g n write) :=
  .ite (.same fun _ => .ok _) (.ok _)

theorem appendToIndex_bare (l : KList ε) (g : Grant ε) (n : ℕ) (e : ε) :
    Follows KList.bare (l.appendToIndex g n e) (l.bare.appendToIndex g n e) :=
  .ite (growIndex_bare l g n _) (.ok _)

theorem growMany_bare (l : KList ε) (g : Grant ε) (n : ℕ) (es : List ε) :
    Follows KList.bare (l.growMany g n es) (l.bare.growMany g n es) :=
  .ite (growIndex_bare l g n _) (.ok _)

theorem checkIndex_bare (l : KList ε) (h : Heap ε) (g : Grant ε) :
    Follows KList.bare (l.checkIndex h g) (l.bare.checkIndex h g) :=
  .ite (.ok _) (.ite (.same fun _ => .ok _) (.ok _))

theorem sortIndexed_bare (l : KList ε) : Follows KList.bare l.sortIndexed l.bare.sortIndexed := by
  obtain ⟨n, mode, first, last, a, compare, search, lock, is⟩ := l
  cases compare with
  | none => cases mode <;> exact .ok _
  | some cmp =>
    cases mode with
    | notIndexed => exact .ok _
    | flat | sorted => exact .same fun _ => .same fun _ => .ok _

theorem sortList_bare (l : KList ε) (h : Heap ε) (g : Grant ε) :
    Follows KList.bare (l.sortList h g) (l.bare.sortList h g) :=
  .bind (checkIndex_bare l h g) sortIndexed_bare

theorem sortPart_bare (l : KList ε) (firstEl : ℤ) (numEl : BitVec 32) :
    Follows KList.bare (l.sortPart firstEl numEl) (l.bare.sortPart firstEl numEl) := by
  obtain ⟨n, mode, first, last, a, compare, search, lock, is⟩ := l
  cases compare with
  | none => cases mode <;> exact .ok _
  | some cmp =>
    cases mode with
    | notIndexed => exact .ok _
    | flat | sorted => exact .ite (.same fun _ => .same fun _ => .ok _) (.ok _)

theorem sortSublist_bare (l : KList ε) (h : Heap ε) (g : Grant ε) (firstEl : ℤ)
    (numEl : BitVec 32) :
    Follows KList.bare (l.sortSublist h g firstEl numEl) (l.bare.sortSublist h g firstEl numEl) :=
  .bind (checkIndex_bare l h g) fun l => sortPart_bare l firstEl numEl

theorem growIndexOrdered_bare (l : KList ε) (g : Grant ε) (e : ε) (pos n : ℕ) :
    Follows KList.bare (l.growIndexOrdered g e pos n) (l.bare.growIndexOrdered g e pos n) :=
  .ite (.same fun _ => .ite (.error _ _) (.ok _)) (.ok _)

theorem sortedInsert_bare (l : KList ε) (h : Heap ε) (g : Grant ε) (e : ε) :
    Follows KList.bare (l.sortedInsert h g e) (l.bare.sortedInsert h g e) :=
  .ite (.same fun _ => growIndexOrdered_bare _ g e _ _)
    (.bind (appendToIndex_bare _ g _ e) fun l => sortList_bare l h g)

/-- The memory and the result of an operation, without alternate indexes. -/
def bareResult {α : Type} (r : Mem ε × α) : Mem ε × α := (r.1.bare, r.2)

theorem indexInsertMany_bare (l : KList ε) (es : List ε) :
    Follows KList.bare (l.indexInsertMany es) (l.bare.indexInsertMany es) := by
  induction es generalizing l with
  | nil => exact .ok _
  | cons e es ih => exact .skip (y := []) fun _ => ih _

theorem insertAtEnd_bare (m : Mem ε) (g : Grant ε) (e : ε) :
    Follows bareResult (insertAtEnd m g e) (insertAtEnd m.bare g e) := by
  obtain ⟨heap, n, mode, first, last, a, compare, search, lock, is⟩ := m
  cases last with
  | none | some q =>
    exact .ite (.same fun _ => .bind (appendToIndex_bare _ g _ e) fun _ => .ok _) (.ok _)

theorem clearList_bare (m : Mem ε) (g : Grant ε) :
    Follows Mem.bare (clearList m g) (clearList m.bare g) :=
  .same fun _ => .ok _

theorem unlink_bare (m : Mem ε) (last : Option ℕ) (cur : ℕ) (n : Node ε) :
    Follows Mem.bare (unlink m last cur n) (unlink m.bare last cur n) := by
  cases last with
  | none => exact .ok _
  | some q => exact .bind (.same fun _ => .ok _) fun _ => .ok _

theorem nthElement_bare (m : Mem ε) (g : Grant ε) (nth : ℤ) :
    Follows bareResult (nthElement m g nth) (nthElement m.bare g nth) :=
  .bind (checkIndex_bare _ _ g) fun _ => .ite (.same fun _ => .same fun _ => .ok _) (.ok _)

theorem searchForElement_bare (m : Mem ε) (g : Grant ε) (v : ε) :
    Follows bareResult (searchForElement m g v) (searchForElement m.bare g v) := by
  refine .bind (checkIndex_bare _ _ g) fun l => ?_
  obtain ⟨n, mode, first, last, a, compare, search, lock, is⟩ := l
  cases search with
  | none => exact .ite (.ok _) (.error _ _)
  | some f =>
    refine .ite (.same fun answer => ?_) (.same fun _ => .ok _)
    cases answer with
    | none => exact .ok _
    | some cur => exact .same fun _ => .same fun _ => .ok _

theorem refresh_bare {m m' : Mem ε} {g : Grant ε} {id : ℤ} {i i' : Index ε} {ok : Bool}
    (h : refresh m g id i = .ok (m', i', ok)) : m'.bare = m.bare := by
  rw [refresh] at h
  split at h
  · cases h
    rfl
  · obtain ⟨x, -, h⟩ := bind_eq_ok h
    cases h
    rfl

theorem addIndex_bare {m m' : Mem ε} {g : Grant ε} {cb : CompFunc ε} {lazyUpd : Bool}
    {r : Except Errno ℕ} (h : addIndex m g cb lazyUpd = .ok (m', r)) : m'.bare = m.bare := by
  rw [addIndex] at h
  dsimp only at h
  split at h
  · cases h
    rfl
  · split at h
    · obtain ⟨x, -, h⟩ := bind_eq_ok h
      cases h
      split <;> rfl
    · cases h
      split <;> rfl

theorem readIndex_bare {m m' : Mem ε} {g : Grant ε} {id nth : ℤ} {r : Except Errno ε}
    (h : readIndex m g id nth = .ok (m', r)) : m'.bare = m.bare := by
  rw [readIndex] at h
  split at h
  · cases h
    rfl
  · split at h
    · cases h
      rfl
    · obtain ⟨⟨m₁, i, ok⟩, hrefresh, h⟩ := bind_eq_ok h
      rw [← refresh_bare hrefresh]
      dsimp only at h
      split at h
      · obtain ⟨a, -, h⟩ := bind_eq_ok h
        obtain ⟨e, -, h⟩ := bind_eq_ok h
        cases h
        rfl
      · cases h
        rfl

theorem searchIndex_bare {m m' : Mem ε} {g : Grant ε} {id : ℤ} {data : ε} {r : Except Errno ℕ}
    (h : searchIndex m g id data = .ok (m', r)) : m'.bare = m.bare := by
  rw [searchIndex] at h
  split at h
  · cases h
    rfl
  · obtain ⟨⟨m₁, i, ok⟩, hrefresh, h⟩ := bind_eq_ok h
    rw [← refresh_bare hrefresh]
    dsimp only at h
    split at h
    · obtain ⟨pos, -, h⟩ := bind_eq_ok h
      cases pos <;>
      · cases h
        rfl
    · cases h
      rfl

theorem changeIndexSort_bare {m m' : Mem ε} {g : Grant ε} {id : ℤ} {newCb : CompFunc ε}
    {r : Except Errno Unit} (h : changeIndexSort m g id newCb = .ok (m', r)) :
    m'.bare = m.bare := by
  rw [changeIndexSort] at h
  split at h
  · cases h
    rfl
  · dsimp only at h
    split at h
    · cases h
      rfl
    · obtain ⟨x, -, h⟩ := bind_eq_ok h
      cases h
      rfl

variable [Inhabited ε]

theorem insertIntoList_bare (m : Mem ε) (g : Grant ε) (e : ε) :
    Follows bareResult (insertIntoList m g e) (insertIntoList m.bare g e) :=
  .ite (.skip (y := []) fun _ => .bind (appendToIndex_bare _ g _ e) fun _ => .ok _) (.ok _)

theorem insertIntoListSorted_bare (m : Mem ε) (g : Grant ε) (e : ε) :
    Follows bareResult (insertIntoListSorted m g e) (insertIntoListSorted m.bare g e) :=
  .ite (.skip (y := []) fun _ => .bind (sortedInsert_bare _ _ g e) fun _ => .ok _) (.ok _)

theorem insertMany_bare (m : Mem ε) (g : Grant ε) (es : List ε) :
    Follows bareResult (insertMany m g es) (insertMany m.bare g es) :=
  .ite (.ite (.error _ _) (.skip (y := []) fun _ => .bind (indexInsertMany_bare _ es) fun l =>
    .bind (growMany_bare l g _ es) fun _ => .ok _)) (.ok _)

variable [DecidableEq ε]

theorem removeElement_bare (m : Mem ε) (g : Grant ε) (v : ε) :
    Follows bareResult (removeElement m g v) (removeElement m.bare g v) := by
  refine .same fun search => .same fun found => ?_
  cases found with
  | none => exact .ok _
  | some x =>
    exact .bind (unlink_bare m x.1 x.2.1 x.2.2) fun m => .same fun _ => .skip (y := []) fun _ =>
      .ok _

theorem removeNth_bare (m : Mem ε) (g : Grant ε) (nth : ℤ) :
    Follows bareResult (removeNth m g nth) (removeNth m.bare g nth) := by
  refine .ite (.ok _) (.same fun found => ?_)
  cases found with
  | none => exact .ok _
  | some x =>
    exact .bind (unlink_bare m x.1 x.2.1 x.2.2) fun m => .skip (y := []) fun _ => .same fun _ =>
      .ok _

theorem call_bare (m : Mem ε) (g : Grant ε) {call : Call ε} (hchain : call.onChain = true) :
    Follows Mem.bare (call.run m g) (call.run m.bare g) := by
  have hfst : ∀ {α : Type} {r r' : Except Fault (Mem ε × α)}, Follows bareResult r r' →
      Follows Mem.bare (Prod.fst <$> r) (Prod.fst <$> r') := fun h => h.map fun _ => rfl
  cases call with
  | insertIntoList e => exact hfst (insertIntoList_bare m g e)
  | insertMany es => exact hfst (insertMany_bare m g es)
  | insertIntoListSorted e => exact hfst (insertIntoListSorted_bare m g e)
  | insertAtEnd e => exact hfst (insertAtEnd_bare m g e)
  | removeElement v => exact hfst (removeElement_bare m g v)
  | removeNth n => exact hfst (removeNth_bare m g n)
  | clearList => exact clearList_bare m g
  | setListAutolock b => exact .ok _
  | _ => cases hchain

theorem indexCall_bare {m m' : Mem ε} {g : Grant ε} {call : Call ε}
    (hchain : call.onChain = false) (h : call.run m g = .ok m') : m'.bare = m.bare := by
  have hfst : ∀ {α : Type} {r : Except Fault (Mem ε × α)}, Prod.fst <$> r = .ok m' →
      ∃ y, r = .ok (m', y) := by
    intro α r h
    cases r with
    | error e => cases h
    | ok x =>
      cases h
      exact ⟨x.2, rfl⟩
  cases call with
  | addIndex cb lazyUpd =>
    obtain ⟨r, hr⟩ := hfst h
    exact addIndex_bare hr
  | dropIndex id =>
    cases h
    rw [dropIndex]
    split <;> rfl
  | readIndex id nth =>
    obtain ⟨r, hr⟩ := hfst h
    exact readIndex_bare hr
  | searchIndex id data =>
    obtain ⟨r, hr⟩ := hfst h
    exact searchIndex_bare hr
  | changeIndexSort id newCb =>
    obtain ⟨r, hr⟩ := hfst h
    exact changeIndexSort_bare hr
  | _ => cases hchain

end Bare

/-! ## What is found -/

theorem lSearchPos_eq {h : Heap ε} (search : ε → ℤ) {p : Option ℕ} {c : List (ℕ × ε)}
    (hc : Linked h.node p c) (count : ℕ) :
    lSearchPos h search c.length count p =
      .ok (((c.map Prod.snd).findIdx? fun e => search e == 0).elim 0 fun i => count + i + 1) := by
  induction c generalizing p count with
  | nil => rfl
  | cons x c ih =>
    obtain ⟨rfl, next, hx, hnext⟩ := hc
    rw [length_cons, lSearchPos, deref_of hx, map_cons, findIdx?_cons]
    show (if search x.2 = 0 then Except.ok (count + 1)
      else lSearchPos h search c.length (count + 1) next) = _
    split
    · rename_i heq
      rw [heq]
      rfl
    · rename_i hne
      rw [beq_eq_false_iff_ne.mpr hne, ih hnext (count + 1)]
      cases (c.map Prod.snd).findIdx? fun e => search e == 0 with
      | none => rfl
      | some i =>
        show Except.ok (count + 1 + i + 1) = .ok (count + (i + 1) + 1)
        rw [Nat.add_right_comm count 1 i, ← Nat.add_assoc count i 1]

theorem searchElementPos_eq {m : Mem ε} {g : Grant ε} {l : KList ε} {v : ε}
    (hcheck : m.list.checkIndex m.heap g = .ok l) (hsearch : l.searchFunc = some f) :
    searchElementPos m g v =
      if l.indexMode = .sorted then
        bsearch f l.numberOfElements v l.elementList >>= fun answer =>
          .ok (⟨m.heap, l⟩, answer.elim 0 (· + 1))
      else
        lSearchPos m.heap (f v) l.numberOfElements 0 l.firstElement >>= fun elementNo =>
          .ok (⟨m.heap, l⟩, elementNo) := by
  rw [searchElementPos, hcheck]
  obtain ⟨n, mode, first, last, a, compare, search, lock, is⟩ := l
  obtain rfl : search = some f := hsearch
  rfl

theorem searchElementPos_mem {m m' : Mem ε} {g : Grant ε} {v : ε} {p : ℕ}
    (h : searchElementPos m g v = .ok (m', p)) :
    ∃ l, m.list.checkIndex m.heap g = .ok l ∧ m' = ⟨m.heap, l⟩ := by
  rw [searchElementPos] at h
  obtain ⟨l, hcheck, h⟩ := bind_eq_ok h
  refine ⟨l, hcheck, ?_⟩
  split at h
  · split at h
    · cases h
      rfl
    · cases h
  · split at h <;>
    · obtain ⟨x, -, h⟩ := bind_eq_ok h
      cases h
      rfl

namespace World.Cached

variable {w : World ε} {c : List (ℕ × ε)} {g : Grant ε}

theorem entries_of_not_sorted (h : w.Cached cmp c) {a : Option (List ε)} {mode : IndexMode}
    (hcheck : w.mem.list.checkIndex w.mem.heap g = .ok (w.mem.list.reindexed a mode))
    (hmode : mode ≠ .sorted) (hflat : w.mem.list.indexMode = .flat → w.entries = w.elements) :
    (w.withList (w.mem.list.reindexed a mode)).entries = w.elements := by
  have hentries : w.entries = w.elements := by
    cases hm : w.mem.list.indexMode with
    | flat => exact hflat hm
    | notIndexed =>
      rw [World.entries, KList.isIndexed, hm]
      rfl
    | sorted =>
      have hi : w.mem.list.isIndexed = true := isIndexed_iff.mpr (by rw [hm]; decide)
      rw [KList.checkIndex, if_pos hi] at hcheck
      have hsame := congrArg KList.indexMode (Except.ok.inj hcheck)
      exact absurd (hsame.symm.trans hm) hmode
  rw [World.entries]
  split
  · rename_i hi
    rw [← hentries]
    exact congrArg (fun a => Option.getD a []) (h.checkIndex_entries hcheck hi)
  · rfl

theorem searchElementPos (h : w.Cached cmp c) (hcmp : TotalPreorder cmp)
    (hsearch : w.mem.list.searchFunc = some f) (hagree : Agrees f cmp)
    (hflat : w.mem.list.indexMode = .flat → w.entries = w.elements) (v : ε) :
    ∃ a mode p, Ovlfs.searchElementPos w.mem g v =
        .ok (⟨w.mem.heap, w.mem.list.reindexed a mode⟩, p) ∧
      (w.mem.list.reindexed a mode).Reflects cmp w.elements ∧
      (p = 0 ↔ ¬ ∃ e ∈ w.elements, f v e = 0) ∧
      (0 < p → ∃ e ∈ (w.withList (w.mem.list.reindexed a mode)).entries[p - 1]?, f v e = 0) := by
  obtain ⟨a, mode, hcheck, hl⟩ := h.checkIndex g
  have hrun := searchElementPos_eq hcheck (v := v) hsearch
  rcases eq_or_ne mode .sorted with rfl | hne
  · -- the index is in order for both functions
    obtain ⟨b, hb, hperm, hs⟩ := hl rfl
    obtain rfl : a = some b := hb
    have hn : w.mem.list.numberOfElements = b.length := by rw [h.count, hperm.length_eq]
    obtain ⟨r, hr, hfound, hmissed⟩ := bsearch_entry f v b
    have hmiss := hmissed (hagree.totalPreorder hcmp) (hagree.sorted (hs rfl))
    have hlist : bsearch f (w.mem.list.reindexed (some b) .sorted).numberOfElements v (some b) =
        .ok r := (congrArg (bsearch f · v (some b)) hn).trans hr
    refine ⟨some b, .sorted, r.elim 0 (· + 1), ?_, hl, ?_, ?_⟩
    · refine hrun.trans ((if_pos rfl).trans ?_)
      show (bsearch f (w.mem.list.reindexed (some b) .sorted).numberOfElements v (some b) >>= _) = _
      rw [hlist]
      rfl
    · cases r with
      | none =>
        refine iff_of_true rfl ?_
        rintro ⟨e, he, hzero⟩
        exact hmiss rfl e (hperm.mem_iff.mpr he) hzero
      | some cur =>
        obtain ⟨x, hx, hzero⟩ := hfound cur rfl
        exact iff_of_false (Nat.succ_ne_zero cur) fun hnone =>
          hnone ⟨x, hperm.mem_iff.mp (mem_of_getElem? hx), hzero⟩
    · cases r with
      | none => exact fun hp => absurd hp (Nat.lt_irrefl 0)
      | some cur =>
        obtain ⟨x, hx, hzero⟩ := hfound cur rfl
        exact fun _ => ⟨x, hx, hzero⟩
  · -- the chain is walked, and its elements are the entries in their order
    have hentries := h.entries_of_not_sorted hcheck hne hflat
    have hwalk := lSearchPos_eq (f v) h.holds.linked 0
    rw [← h.elements, ← show w.mem.list.numberOfElements = c.length from h.holds.count] at hwalk
    change lSearchPos w.mem.heap (f v) w.mem.list.numberOfElements 0 w.mem.list.firstElement = _
      at hwalk
    refine ⟨a, mode, (w.elements.findIdx? fun e => f v e == 0).elim 0 fun i => 0 + i + 1, ?_, hl,
      ?_, ?_⟩
    · refine hrun.trans ((if_neg hne).trans ?_)
      show (lSearchPos w.mem.heap (f v) w.mem.list.numberOfElements 0
        w.mem.list.firstElement >>= _) = _
      rw [hwalk]
      rfl
    · cases hidx : w.elements.findIdx? fun e => f v e == 0 with
      | none =>
        refine iff_of_true rfl ?_
        rintro ⟨e, he, hzero⟩
        have hno := findIdx?_eq_none_iff.mp hidx e he
        rw [hzero] at hno
        cases hno
      | some i =>
        refine iff_of_false (Nat.succ_ne_zero _) fun hnone => ?_
        obtain ⟨hlt, hmatch, -⟩ := findIdx?_eq_some_iff_getElem.mp hidx
        exact hnone ⟨_, getElem_mem hlt, eq_of_beq hmatch⟩
    · rw [hentries]
      cases hidx : w.elements.findIdx? fun e => f v e == 0 with
      | none => exact fun hp => absurd hp (Nat.lt_irrefl 0)
      | some i =>
        obtain ⟨hlt, hmatch, -⟩ := findIdx?_eq_some_iff_getElem.mp hidx
        refine fun _ => ⟨_, ?_, eq_of_beq hmatch⟩
        show w.elements[0 + i + 1 - 1]? = _
        rw [Nat.zero_add, Nat.add_sub_cancel]
        exact getElem?_eq_getElem hlt

end World.Cached

/-! ## Runs -/

section Runs

variable [DecidableEq ε] [Inhabited ε]

/-- An operation on a list, with those that change the order or give a position. -/
inductive SearchOp (ε : Type) where
  | operation (op : Operation ε)
  | setCompareFunc (compFunc : CompFunc ε)
  | setSearchFunc (searchFunc : CompFunc ε)
  | searchElementPos (value : ε)

def Operation.onChain : Operation ε → Bool
  | .call c => c.onChain
  | _ => true

def World.doSearchOp (w : World ε) (a : Grant ε × SearchOp ε) : Except Fault (World ε) :=
  match a.2 with
  | .operation op => w.operate (a.1, op)
  | .setCompareFunc compFunc => .ok (w.withList (Ovlfs.setCompareFunc w.mem.list compFunc))
  | .setSearchFunc searchFunc => .ok (w.withList (Ovlfs.setSearchFunc w.mem.list searchFunc))
  | .searchElementPos v => (fun r => ⟨r.1, w.content⟩) <$> Ovlfs.searchElementPos w.mem a.1 v

/-- New nodes are put where none is, and an order is a total preorder. -/
def World.PermitsSearch (w : World ε) (a : Grant ε × SearchOp ε) : Prop :=
  match a.2 with
  | .operation (.call c) => w.Fresh (a.1, c)
  | .setCompareFunc compFunc => TotalPreorder compFunc
  | _ => True

/-- The condition on operations: those on the chain and on the primary index keep the index, and the
order of an index that is marked as sorted is only changed to one that its entries have. -/
def World.FitsSearch (w : World ε) (a : Grant ε × SearchOp ε) : Prop :=
  match a.2 with
  | .operation (.call c) => c.onChain = true → w.FitsPrimary (a.1, .call c)
  | .operation op => w.FitsPrimary (a.1, op)
  | .setCompareFunc compFunc => w.mem.list.indexMode = .sorted → Sorted compFunc w.entries
  | _ => True

def World.Searchable (w : World ε) : Prop := ∃ cmp c, TotalPreorder cmp ∧ w.bare.Kept cmp c

namespace World.Searchable

variable {w w' : World ε} {c : List (ℕ × ε)} {g : Grant ε}

omit [DecidableEq ε] [Inhabited ε] in
theorem cached (h : w.bare.Kept cmp c) : w.Cached cmp c :=
  ⟨⟨h.holds.linked, h.holds.count, h.holds.items,
    ⟨h.holds.primary.entries, h.holds.primary.compare⟩⟩,
    h.compare, h.reflects⟩

omit [DecidableEq ε] [Inhabited ε] in
theorem of_kept (hcmp : TotalPreorder cmp) (h : w.bare.Kept cmp c) : w.Searchable :=
  ⟨cmp, c, hcmp, h⟩

theorem operate_bare (w : World ε) (g : Grant ε) {op : Operation ε}
    (hchain : op.onChain = true) :
    Follows World.bare (w.operate (g, op)) (w.bare.operate (g, op)) := by
  cases op with
  | call call => exact .bind (call_bare w.mem g hchain) fun _ => .ok _
  | sortList => exact (sortList_bare w.mem.list w.mem.heap g).map fun _ => rfl
  | sortSublist firstEl numEl =>
    exact (sortSublist_bare w.mem.list w.mem.heap g firstEl numEl).map fun _ => rfl
  | nthElement nth => exact (nthElement_bare w.mem g nth).map fun _ => rfl
  | searchForElement v => exact (searchForElement_bare w.mem g v).map fun _ => rfl

theorem onChain (h : w.Searchable) (op : Operation ε) (hchain : op.onChain = true)
    (hpermits : w.bare.Permits (g, op)) (hfits : w.bare.FitsPrimary (g, op))
    (hres : w.operate (g, op) = .ok w') : w'.Searchable := by
  obtain ⟨cmp, c, hcmp, hkept⟩ := h
  obtain ⟨w'', c', hres', hkept'⟩ := hkept.operate hcmp hpermits hfits
  have hsame := Except.ok.inj ((operate_bare w g hchain w' hres).symm.trans hres')
  exact .of_kept hcmp (hsame ▸ hkept')

theorem operate (h : w.Searchable) {op : Operation ε}
    (hpermits : w.PermitsSearch (g, .operation op))
    (hfits : w.FitsSearch (g, .operation op)) (hres : w.operate (g, op) = .ok w') :
    w'.Searchable := by
  cases op with
  | call call =>
    cases hchain : call.onChain with
    | true =>
      have hfits' : w.FitsPrimary (g, .call call) := hfits hchain
      refine h.onChain (.call call) hchain ⟨hpermits, hchain⟩ ?_ hres
      cases call <;> exact hfits'
    | false =>
      obtain ⟨m, hrun, hcall⟩ := bind_eq_ok hres
      cases hcall
      have hsame := indexCall_bare hchain hrun
      have hcontent : call.content w.mem.list.searchFunc g w.content = w.content := by
        cases call <;> first | rfl | cases hchain
      obtain ⟨cmp, c, hcmp, hkept⟩ := h
      refine .of_kept hcmp (c := c) ?_
      show World.Kept cmp ⟨m.bare, call.content w.mem.list.searchFunc g w.content⟩ c
      rw [hsame, hcontent]
      exact hkept
  | sortList => exact h.onChain .sortList rfl trivial trivial hres
  | sortSublist firstEl numEl => exact h.onChain (.sortSublist firstEl numEl) rfl trivial hfits hres
  | nthElement nth => exact h.onChain (.nthElement nth) rfl trivial trivial hres
  | searchForElement v => exact h.onChain (.searchForElement v) rfl trivial hfits hres

section

omit [DecidableEq ε] [Inhabited ε]

theorem setCompareFunc (h : w.Searchable) {compFunc : CompFunc ε} (hcmp : TotalPreorder compFunc)
    (hfits : w.mem.list.indexMode = .sorted → Sorted compFunc w.entries) :
    (w.withList (Ovlfs.setCompareFunc w.mem.list compFunc)).Searchable := by
  obtain ⟨cmp, c, -, hkept⟩ := h
  refine .of_kept hcmp (c := c) ⟨⟨⟨hkept.holds.linked, hkept.holds.count, hkept.holds.items,
    primary_of_not_indexed rfl⟩, rfl, fun hi => ?_⟩, hkept.last, rfl⟩
  obtain ⟨a, ha, hperm, -⟩ := hkept.reflects hi
  refine ⟨a, ha, hperm, fun hs => ?_⟩
  have hentries : w.entries = a := by
    rw [World.entries, if_pos (show w.mem.list.isIndexed = true from hi)]
    exact congrArg (fun a => Option.getD a []) ha
  rw [← hentries]
  exact hfits hs

theorem setSearchFunc (h : w.Searchable) (searchFunc : CompFunc ε) :
    (w.withList (Ovlfs.setSearchFunc w.mem.list searchFunc)).Searchable := by
  obtain ⟨cmp, c, hcmp, hkept⟩ := h
  exact .of_kept hcmp (c := c) ⟨⟨⟨hkept.holds.linked, hkept.holds.count, hkept.holds.items,
    primary_of_not_indexed rfl⟩, hkept.compare, hkept.reflects⟩, hkept.last, rfl⟩

theorem searchElementPos (h : w.Searchable) {v : ε} {m : Mem ε} {p : ℕ}
    (hres : Ovlfs.searchElementPos w.mem g v = .ok (m, p)) :
    World.Searchable ⟨m, w.content⟩ := by
  obtain ⟨cmp, c, hcmp, hkept⟩ := h
  obtain ⟨a, mode, hcheck, hl⟩ := (cached hkept).checkIndex g
  obtain ⟨l, hcheck', rfl⟩ := searchElementPos_mem hres
  obtain rfl := Except.ok.inj (hcheck.symm.trans hcheck')
  exact .of_kept hcmp (hkept.reindexed hl)

end

/-- **The step lemma**: an operation that fits keeps the invariant. -/
theorem step (h : w.Searchable) {a : Grant ε × SearchOp ε} (hpermits : w.PermitsSearch a)
    (hfits : w.FitsSearch a) (hres : w.doSearchOp a = .ok w') : w'.Searchable := by
  obtain ⟨g, op⟩ := a
  cases op with
  | operation op => exact h.operate hpermits hfits hres
  | setCompareFunc compFunc =>
    cases hres
    exact h.setCompareFunc hpermits hfits
  | setSearchFunc searchFunc =>
    cases hres
    exact h.setSearchFunc searchFunc
  | searchElementPos v =>
    cases hpos : Ovlfs.searchElementPos w.mem g v with
    | error e =>
      have herror : ((fun r : Mem ε × ℕ => (⟨r.1, w.content⟩ : World ε)) <$>
        Ovlfs.searchElementPos w.mem g v) = .ok w' := hres
      rw [hpos] at herror
      cases herror
    | ok x =>
      have hok : ((fun r : Mem ε × ℕ => (⟨r.1, w.content⟩ : World ε)) <$>
        Ovlfs.searchElementPos w.mem g v) = .ok w' := hres
      rw [hpos] at hok
      cases hok
      exact h.searchElementPos (m := x.1) (p := x.2) hpos

end World.Searchable

end Runs

end Ovlfs
