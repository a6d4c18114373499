import ReadingComment.Ovlfs.ListLocks

/-!
# Operations give back what they take

On every path through an operation what was locked is unlocked: the locks at the end are computed
along the code. In `dup_list` the elements go to a list that was just made, so that the lock of
`insert_at_end` is another one; in `clear_list` and `merge_list` it is the same one again.
-/

namespace Ovlfs.ListLocks

open Lib Lib.LockProgram

variable {u : Code} {held : Finset ℕ} {l l' : ℕ} {o : LockOutcome ℕ}

/-- The functions of the user give back what they take, and ask for no semaphore that may be held as
they are called: one of the process, or of a list of the call. -/
def Call.KeepsOff (u : Code) (c : Call) (held : Finset ℕ) : Prop :=
  ∀ h, held ⊆ h → h ⊆ held ∪ c.lists → Balanced u u h

/-- The calls that lock each of their lists once and unlock it: not `lock_list` and `unlock_list`,
not `clear_list` of an abstract list, whose `foreach_node` locks the list again, and `merge_list`
only of an empty list into another one, since its `insert_at_end` locks the first list again. The
list that `dup_list` makes is another one. -/
def Call.LocksOnce : Call → Prop
  | .lockList l | .unlockList l => l = none
  | .clearList type l => l = none ∨ type = .user
  | .dupList l result _ => result ∉ l
  | .mergeList list1 list2 n => list1 = none ∨ list2 = none ∨ list1 ≠ list2 ∧ n = 0
  | _ => True

attribute [local simp] Gives useEach makeIndex checkIndex cleanupIndex myRealloc growIndex
  growIndexOrdered ssort bsearch updateAltIndex lSearch findInsertPos sortUnlocked nthUnlocked
  altIndexInsert altIndexResize findRemovePos altIndexDelete dropUnlocked unlessNull enterAll deleteAll

/-- **An operation on one list** unlocks it on every path on which it locks it. -/
theorem Op.gives (op : Op) (hfree : l ∉ held) (hu : Balanced u u held)
    (hlocked : Balanced u u (insert l held)) : Gives u (op.code (some l)) held held := by
  cases op with
  | indexList => simp [Op.code, ListLocks.indexList, hfree]
  | sortList => simp [Op.code, ListLocks.sortList, hfree, hlocked]
  | sortSublist => simp [Op.code, ListLocks.sortSublist, hfree, hlocked]
  | listLength => simp [Op.code, ListLocks.listLength]
  | nthElement => simp [Op.code, ListLocks.nthElement, hfree, hlocked]
  | searchElementPos => simp [Op.code, ListLocks.searchElementPos, hfree, hlocked]
  | searchForElement => simp [Op.code, ListLocks.searchForElement, hfree, hlocked]
  | insertIntoList => simp [Op.code, ListLocks.insertIntoList, hfree, hlocked]
  | insertMany => simp [Op.code, ListLocks.insertMany, hfree, hlocked]
  | insertIntoListSorted => simp [Op.code, ListLocks.insertIntoListSorted, hfree, hlocked]
  | insertAtEnd => simp [Op.code, ListLocks.insertAtEnd, hfree, hlocked]
  | firstElement => simp [Op.code, ListLocks.firstElement, hfree]
  | destroyList => simp [Op.code, ListLocks.destroyList, hfree, hlocked, hu]
  | foreachNode => simp [Op.code, ListLocks.foreachNode, hfree, hlocked]
  | removeElement => simp [Op.code, ListLocks.removeElement, hfree, hlocked]
  | removeNth => simp [Op.code, ListLocks.removeNth, hfree, hlocked]
  | removeNode => simp [Op.code, ListLocks.removeNode, hfree, hlocked]
  | setCompareFunc => simp [Op.code, ListLocks.setCompareFunc, hfree]
  | setSearchFunc => simp [Op.code, ListLocks.setSearchFunc, hfree]
  | setListAutolock => simp [Op.code, ListLocks.setListAutolock]
  | addIndex => simp [Op.code, ListLocks.addIndex, hfree, hlocked]
  | dropIndex => simp [Op.code, ListLocks.dropIndex, hfree, hlocked]
  | readIndex => simp [Op.code, ListLocks.readIndex, hfree, hlocked]
  | searchIndex => simp [Op.code, ListLocks.searchIndex, hfree, hlocked]
  | changeIndexSort => simp [Op.code, ListLocks.changeIndexSort, hfree, hlocked]

theorem Op.gives_none (op : Op) : Gives u (op.code none) held held := by
  cases op <;> rfl

/-! ## Copies -/

/-- Each `insert_at_end` of `__merge_list` locks and unlocks the first list. -/
theorem mergeLoop_gives (n : ℕ) (hfree : l' ∉ held) (hself : Balanced u u held)
    (hlocked : Balanced u u (insert l' held)) : Gives u (mergeLoop (some l') n) held held := by
  induction n with
  | zero => rfl
  | succ n ih => simp [mergeLoop, insertAtEnd, hfree, hself, hlocked, ih]

theorem dupList_gives (n : ℕ) (hfree : l ∉ held) (hnew : l' ∉ held) (hne : l' ≠ l)
    (hlocked : Balanced u u (insert l held)) (hboth : Balanced u u (insert l' (insert l held))) :
    Gives u (dupList (some l) l' n) held held := by
  have hfree' : l' ∉ insert l held := by simp [hne, hnew]
  have hloop := mergeLoop_gives n hfree' hlocked hboth
  simp [dupList, createList, mergeUnlocked, listLength, destroyList, hfree, hne, hnew, hlocked,
    hboth, hloop]

/-! ## All calls -/

/-- A call that locks its lists once gives back what it takes. -/
theorem Call.gives {c : Call} (hone : c.LocksOnce) (hfree : ∀ l ∈ c.lists, l ∉ held)
    (hu : c.KeepsOff u held) : Gives u c.code held held := by
  have hself : Balanced u u held := hu held subset_rfl Finset.subset_union_left
  have hlocked {l : ℕ} (hl : l ∈ c.lists) : Balanced u u (insert l held) :=
    hu _ (Finset.subset_insert ..)
      (Finset.insert_subset (Finset.mem_union_right _ hl) Finset.subset_union_left)
  cases c with
  | onList op l =>
    cases l with
    | none => exact op.gives_none
    | some l => exact op.gives (hfree l (by simp [lists])) hself (hlocked (by simp [lists]))
  | createList => simp [code, ListLocks.createList, hself]
  | noList => rfl
  | addAbsNode => simp [code, ListLocks.addAbsNode, hself]
  | lockList l =>
    obtain rfl : l = none := hone
    rfl
  | unlockList l =>
    obtain rfl : l = none := hone
    rfl
  | clearList type l =>
    cases l with
    | none => rfl
    | some l =>
      obtain rfl : type = .user := by simpa [LocksOnce] using hone
      simp [code, ListLocks.clearList, hfree l (by simp [lists]),
        hlocked (l := l) (by simp [lists])]
  | dupList l result n =>
    cases l with
    | none => rfl
    | some l =>
      have hnew : result ∈ lists (.dupList (some l) result n) := by simp [lists]
      have hold : l ∈ lists (.dupList (some l) result n) := by simp [lists]
      have hboth : Balanced u u (insert result (insert l held)) :=
        hu _ ((Finset.subset_insert ..).trans (Finset.subset_insert ..))
          (Finset.insert_subset (Finset.mem_union_right _ hnew)
            (Finset.insert_subset (Finset.mem_union_right _ hold) Finset.subset_union_left))
      have hne : result ≠ l := fun heq => hone (by simp [heq])
      exact dupList_gives n (hfree l hold) (hfree result hnew) hne (hlocked hold) hboth
  | mergeList list1 list2 n =>
    cases list1 with
    | none => rfl
    | some l₁ =>
      cases list2 with
      | none => rfl
      | some l₂ =>
        obtain ⟨hne, rfl⟩ : l₁ ≠ l₂ ∧ n = 0 := by simpa [LocksOnce] using hone
        have h₁ := hfree l₁ (by simp [lists])
        have h₂ := hfree l₂ (by simp [lists])
        have hback : ((insert l₂ (insert l₁ held)).erase l₁).erase l₂ = held := by
          rw [Finset.erase_insert_of_ne hne.symm, Finset.erase_insert h₁, Finset.erase_insert h₂]
        simp [code, ListLocks.mergeList, mergeUnlocked, mergeLoop, listLength, h₁, h₂, hne.symm,
          hback]

end Ovlfs.ListLocks
