import ReadingComment.Lib.LockPaths
import Mathlib.Data.Finset.Option

/-!
# Semaphores of lists (`lists/kernel_lists.c`)

An operation is what it does to the semaphores of auto-locking lists: where it locks and unlocks, on
which path it leaves by which label, and which operations and functions it calls in between. A test
of nodes, indexes, memory or results of calls goes either way, since no semaphore depends on it;
what decides which list is locked stays: whether a pointer is `NULL`, and, where it matters, the
type of a list and the number of its elements.

The functions of the user (to compare, search, go on and add, `do_malloc` and `do_free`, and the one
given to `foreach_node`) are called where the source calls them, and may do anything. A list is
known by its address; a new list has an address of its own.
-/

namespace Ovlfs.ListLocks

abbrev Code : Type := Lib.LockProgram ℕ

/-- `list_type`. -/
inductive ListType where
  | abstract
  | user
  deriving DecidableEq

/-! ## Functions that leave the semaphores alone -/

/-- A `while` loop that calls a function of the user in each round. -/
def useEach : Code := .loop (.user .ret) .ret

/-- `make_index(list_to_index)`. -/
def makeIndex : Code := .user (.test .ret useEach)

/-- `check_index(list_to_index)`, with `__index_list`. -/
def checkIndex : Code := .test makeIndex .ret

/-- `cleanup_index(list_to_clean)`. -/
def cleanupIndex : Code := .test (.user .ret) .ret

/-- `my_realloc(obj, old_size, new_size)`. -/
def myRealloc : Code := .test (.user .ret) .ret

/-- `grow_index(list_to_index, old_size)`. -/
def growIndex : Code := .call myRealloc .ret

/-- `grow_index_ordered(list_to_index, new_data, pos, old_size)`. -/
def growIndexOrdered : Code := .call myRealloc (.test .ret (.user .ret))

/-- `ssort(base, num_el, size_el, compar, de_ref_f)`. -/
def ssort : Code := .test .ret (.loop useEach .ret)

/-- `bsearch(value, base, num_el, size_el, compar, de_ref_f)`. -/
def bsearch : Code := .test .ret useEach

/-- `update_alt_index(list, index_id)`. -/
def updateAltIndex : Code :=
  .call (.test (.user .ret) .ret) (.test .ret (.call makeIndex (.test .ret ssort)))

/-- `l_search(list_to_search, value)`. -/
def lSearch : Code := .loop (.user (.test .ret (.user .ret))) .ret

/-- `__find_insert_pos(insert_list, new_data, comp_cb, index_ptr)`. -/
def findInsertPos : Code := useEach

/-- `__sort_list(list_to_sort)`. -/
def sortUnlocked : Code := .call checkIndex (.test ssort .ret)

/-- `__nth_element(list_to_search, nth)`. -/
def nthUnlocked : Code := .call checkIndex .ret

/-- `alt_index_insert(i_list, id, ele)`. -/
def altIndexInsert : Code := .test .ret findInsertPos

/-- `alt_index_resize(i_list, id, change)`. -/
def altIndexResize : Code :=
  .test .ret (.test (.user .ret) (.call myRealloc (.test (.user .ret) .ret)))

/-- `__find_remove_pos(r_list, ele, comp_cb, index_arr)`. -/
def findRemovePos : Code := .call bsearch (.test .ret (.call useEach (.test .ret useEach)))

/-- `alt_index_delete(r_list, id, ele)`. -/
def altIndexDelete : Code := .test .ret findRemovePos

/-- `__drop_index(list, index_id)`. -/
def dropUnlocked : Code := .test .ret (.call (.test (.user .ret) .ret) (.user .ret))

/-! ## Operations -/

/-- `if ( list == (list_t) NULL ) return ...`. -/
def unlessNull (l : Option ℕ) (f : ℕ → Code) : Code :=
  match l with
  | none => .ret
  | some l => f l

/-- `create_list(next_node, element_compare, search_function, add_function)`. -/
def createList : Code := .user (.test .ret .ret)

/-- `index_list(list_to_index)`. -/
def indexList (l : Option ℕ) : Code := unlessNull l fun l => .lock l .ret (.unlock l .ret)

/-- `set_compare_func(list, comp_func)`. -/
def setCompareFunc (l : Option ℕ) : Code := unlessNull l fun l => .lock l .ret (.unlock l .ret)

/-- `set_search_func(list, search_func)`. -/
def setSearchFunc (l : Option ℕ) : Code := unlessNull l fun l => .lock l .ret (.unlock l .ret)

/-- `sort_list(list_to_sort)`. -/
def sortList (l : Option ℕ) : Code := unlessNull l fun l =>
  .lock l .ret (.call sortUnlocked (.unlock l .ret))

/-- `sort_sublist(list_to_sort, first_el, num_el)`. -/
def sortSublist (l : Option ℕ) : Code := unlessNull l fun l =>
  .lock l .ret (.call checkIndex (.call (.test ssort .ret) (.unlock l .ret)))

/-- `list_length(list_to_count)`, without the lock. -/
def listLength (_ : Option ℕ) : Code := .ret

/-- `nth_element(list_to_search, nth)`. -/
def nthElement (l : Option ℕ) : Code := unlessNull l fun l =>
  .lock l .ret (.call nthUnlocked (.unlock l .ret))

/-- `search_element_pos(list_to_search, value)`. -/
def searchElementPos (l : Option ℕ) : Code := unlessNull l fun l =>
  .lock l .ret (.call checkIndex (.call (.test bsearch lSearch) (.unlock l .ret)))

/-- `search_for_element(list_to_search, value)`. -/
def searchForElement (l : Option ℕ) : Code := unlessNull l fun l =>
  .lock l .ret (.call checkIndex (.call (.test bsearch lSearch) (.unlock l .ret)))

/-- An element is entered into all indexes of the list. -/
def enterAll : Code := .loop (.call altIndexResize altIndexInsert) .ret

/-- `insert_into_list(insert_list, ptr1)`. -/
def insertIntoList (l : Option ℕ) : Code := unlessNull l fun l =>
  .lock l .ret (.call (.test (.user .ret) .ret) (.call
    -- whether there is a new node, an index, and an abstract list
    (.test .ret (.call enterAll (.test .ret
      (.test (.call growIndex (.test .ret cleanupIndex)) cleanupIndex))))
    (.unlock l .ret)))

/-- `insert_many(insert_list, data, el_size, num_el)`. -/
def insertMany (l : Option ℕ) : Code := unlessNull l fun l =>
  .lock l .ret (.call
    (.test .ret (.user (.test .ret (.call (.loop altIndexResize .ret)
      (.call (.loop (.loop altIndexInsert .ret) .ret)
        (.test (.call growIndex (.test .ret cleanupIndex)) cleanupIndex))))))
    (.unlock l .ret))

/-- `insert_into_list_sorted(insert_list, ptr1)`. -/
def insertIntoListSorted (l : Option ℕ) : Code := unlessNull l fun l =>
  .lock l .ret (.call (.test (.user .ret) .ret) (.call
    (.test .ret (.call enterAll (.test
      (.call (.test (.call growIndex (.test .ret cleanupIndex)) .ret) sortUnlocked)
      (.call findInsertPos (.call growIndexOrdered (.test .ret cleanupIndex))))))
    (.unlock l .ret)))

/-- `insert_at_end(insert_list, ptr1)`. -/
def insertAtEnd (l : Option ℕ) : Code := unlessNull l fun l =>
  .lock l .ret (.call (.test (.user .ret) .ret) (.call
    (.test .ret (.test .ret
      (.test (.call growIndex (.test .ret cleanupIndex)) cleanupIndex)))
    (.unlock l .ret)))

/-- `first_element(p_list)`. -/
def firstElement (l : Option ℕ) : Code := unlessNull l fun l => .lock l .ret (.unlock l .ret)

/-- `destroy_list(d_list)`: the list is freed after it was unlocked. -/
def destroyList (l : Option ℕ) : Code := unlessNull l fun l =>
  .lock l .ret (.call (.test .ret (.loop dropUnlocked (.user .ret)))
    (.call (.test (.user .ret) .ret)
      (.call (.test (.loop (.user (.user .ret)) .ret) .ret) (.unlock l (.user .ret)))))

/-- `foreach_node(list_to_traverse, user_func)`. -/
def foreachNode (l : Option ℕ) : Code := unlessNull l fun l =>
  .lock l .ret (.call
    (.test (.loop (.user (.user .ret)) .ret) (.loop (.call nthUnlocked (.user .ret)) .ret))
    (.unlock l .ret))

/-- `clear_list(c_list)`: the nodes of an abstract list are freed with `foreach_node`. -/
def clearList (type : ListType) (l : Option ℕ) : Code := unlessNull l fun l =>
  .lock l .ret (.call cleanupIndex (.call
    (match type with
      | .abstract => foreachNode (some l)
      | .user => .ret)
    (.unlock l .ret)))

/-- The loop of `__merge_list`, with a number of elements. -/
def mergeLoop (list1 : Option ℕ) : ℕ → Code
  | 0 => .ret
  | n + 1 => .call nthUnlocked (.call (insertAtEnd list1) (mergeLoop list1 n))

/-- `__merge_list(list1, list2)`, with the number of the elements of the second list. -/
def mergeUnlocked (list1 list2 : Option ℕ) (n : ℕ) : Code :=
  if list2 ≠ none ∧ list1 ≠ none then .call (listLength list2) (mergeLoop list1 n)
  else .ret

/-- `merge_list(list1, list2)`. -/
def mergeList (list1 list2 : Option ℕ) (n : ℕ) : Code :=
  unlessNull list1 fun l₁ => unlessNull list2 fun l₂ =>
    .lock l₁ .ret (.lock l₂ (.unlock l₁ .ret)
      (.call (mergeUnlocked list1 list2 n) (.unlock l₁ (.unlock l₂ .ret))))

/-- `dup_list(d_list)`, with the new list. -/
def dupList (l : Option ℕ) (result n : ℕ) : Code := unlessNull l fun l =>
  .lock l .ret (.call createList (.call
    (.test .ret (.call (mergeUnlocked (some result) (some l) n)
      (.test (destroyList (some result)) .ret)))
    (.unlock l .ret)))

/-- An element is taken out of all indexes of the list. -/
def deleteAll : Code := .loop (.call altIndexDelete altIndexResize) .ret

/-- `remove_element(list, search_val)`. -/
def removeElement (l : Option ℕ) : Code := unlessNull l fun l =>
  .test .ret (.lock l .ret (.call useEach
    (.call (.test (.user (.call cleanupIndex deleteAll)) .ret) (.unlock l .ret))))

/-- `remove_nth(list, nth)`. -/
def removeNth (l : Option ℕ) : Code := unlessNull l fun l =>
  .test .ret (.lock l .ret
    (.call (.test (.call deleteAll (.user cleanupIndex)) .ret) (.unlock l .ret)))

/-- `remove_node(list, node_ptr)`. -/
def removeNode (l : Option ℕ) : Code := unlessNull l fun l =>
  .test .ret (.lock l .ret
    (.call (.test (.call deleteAll (.user cleanupIndex)) .ret) (.unlock l .ret)))

/-- `next_abs_node(a_ptr)`, `klist_define_malloc(malloc_func)` and `klist_define_free(free_func)`.
-/
def noList : Code := .ret

/-- `add_abs_node(data_ptr, front_of_list)` and `add_abs_node_at_end(data_ptr, e_o_list)`. -/
def addAbsNode : Code := .user (.test .ret .ret)

/-- `lock_list(l_list)`. -/
def lockList (l : Option ℕ) : Code := unlessNull l fun l => .lock l .ret .ret

/-- `unlock_list(l_list)`. -/
def unlockList (l : Option ℕ) : Code := unlessNull l fun l => .unlock l .ret

/-- `set_list_autolock(l_list, do_locking)`, without the lock. -/
def setListAutolock (_ : Option ℕ) : Code := .ret

/-! ### Indexes -/

/-- `add_index(list, cb_func, flags, r_index_id)`; the other pointers may be `NULL` too. -/
def addIndex (l : Option ℕ) : Code :=
  let out : Code := .ret
  match l with
  | none => out
  | some l =>
    let outLocked : Code := .unlock l out
    let haveSlot : Code := .user (.test outLocked (.call updateAltIndex outLocked))
    .test out (.lock l out
      -- the first index, a slot that is not used, or a new one
      (.test (.user (.test outLocked haveSlot))
        (.test haveSlot (.call myRealloc (.test outLocked haveSlot)))))

/-- `drop_index(list, index_id)`. -/
def dropIndex (l : Option ℕ) : Code :=
  let out : Code := .ret
  match l with
  | none => out
  | some l =>
    let outLocked : Code := .unlock l out
    .lock l out (.test outLocked (.call dropUnlocked outLocked))

/-- `read_index(list, index_id, nth, r_ele)`. -/
def readIndex (l : Option ℕ) : Code :=
  let out : Code := .ret
  match l with
  | none => out
  | some l =>
    let outLocked : Code := .unlock l out
    -- the other arguments are refused; the index is updated, which may fail
    .lock l out (.test outLocked
      (.test (.call updateAltIndex (.test outLocked outLocked)) outLocked))

/-- `search_index(list, index_id, data, r_pos)`. -/
def searchIndex (l : Option ℕ) : Code :=
  let out : Code := .ret
  match l with
  | none => out
  | some l =>
    let outLocked : Code := .unlock l out
    let search : Code := .call bsearch (.test outLocked outLocked)
    .lock l out (.test outLocked (.test (.call updateAltIndex (.test outLocked search)) search))

/-- `change_index_sort(list, index_id, new_cb)`. -/
def changeIndexSort (l : Option ℕ) : Code :=
  let out : Code := .ret
  match l with
  | none => out
  | some l =>
    let outLocked : Code := .unlock l out
    .lock l out (.test outLocked (.test (.call updateAltIndex outLocked) outLocked))

/-! ## Calls -/

/-- The operations that are given one list. `kernel_lists` has all but `sort_sublist`,
`search_element_pos`, `insert_many`, `set_search_func` and `remove_node`. -/
inductive Op where
  | indexList
  | sortList
  | sortSublist
  | listLength
  | nthElement
  | searchElementPos
  | searchForElement
  | insertIntoList
  | insertMany
  | insertIntoListSorted
  | insertAtEnd
  | firstElement
  | destroyList
  | foreachNode
  | removeElement
  | removeNth
  | removeNode
  | setCompareFunc
  | setSearchFunc
  | setListAutolock
  | addIndex
  | dropIndex
  | readIndex
  | searchIndex
  | changeIndexSort

def Op.code : Op → Option ℕ → Code
  | .indexList => ListLocks.indexList
  | .sortList => ListLocks.sortList
  | .sortSublist => ListLocks.sortSublist
  | .listLength => ListLocks.listLength
  | .nthElement => ListLocks.nthElement
  | .searchElementPos => ListLocks.searchElementPos
  | .searchForElement => ListLocks.searchForElement
  | .insertIntoList => ListLocks.insertIntoList
  | .insertMany => ListLocks.insertMany
  | .insertIntoListSorted => ListLocks.insertIntoListSorted
  | .insertAtEnd => ListLocks.insertAtEnd
  | .firstElement => ListLocks.firstElement
  | .destroyList => ListLocks.destroyList
  | .foreachNode => ListLocks.foreachNode
  | .removeElement => ListLocks.removeElement
  | .removeNth => ListLocks.removeNth
  | .removeNode => ListLocks.removeNode
  | .setCompareFunc => ListLocks.setCompareFunc
  | .setSearchFunc => ListLocks.setSearchFunc
  | .setListAutolock => ListLocks.setListAutolock
  | .addIndex => ListLocks.addIndex
  | .dropIndex => ListLocks.dropIndex
  | .readIndex => ListLocks.readIndex
  | .searchIndex => ListLocks.searchIndex
  | .changeIndexSort => ListLocks.changeIndexSort

/-- A call of an operation. -/
inductive Call where
  | onList (op : Op) (l : Option ℕ)
  | createList
  | noList
  | addAbsNode
  | lockList (l : Option ℕ)
  | unlockList (l : Option ℕ)
  | clearList (type : ListType) (l : Option ℕ)
  /-- the address of the new list, and how many elements the list has -/
  | dupList (l : Option ℕ) (result n : ℕ)
  /-- how many elements the second list has -/
  | mergeList (list1 list2 : Option ℕ) (n : ℕ)

def Call.code : Call → Code
  | .onList op l => op.code l
  | .createList => ListLocks.createList
  | .noList => ListLocks.noList
  | .addAbsNode => ListLocks.addAbsNode
  | .lockList l => ListLocks.lockList l
  | .unlockList l => ListLocks.unlockList l
  | .clearList type l => ListLocks.clearList type l
  | .dupList l result n => ListLocks.dupList l result n
  | .mergeList list1 list2 n => ListLocks.mergeList list1 list2 n

/-- The lists that are given to a call, and the one that it makes. -/
def Call.lists : Call → Finset ℕ
  | .onList _ l | .lockList l | .unlockList l | .clearList _ l => l.toFinset
  | .createList | .noList | .addAbsNode => ∅
  | .dupList l result _ => insert result l.toFinset
  | .mergeList list1 list2 _ => list1.toFinset ∪ list2.toFinset

end Ovlfs.ListLocks
